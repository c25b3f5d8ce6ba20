/-
What labels come to. The machine and the assembly resolve a label in the same order: a
string first, then a function, then a builtin. So a string literal is always found, and
a function is found where its name does not read as the label of a string.
-/
import Wordstack.Proofs.Correctness
import Wordstack.Proofs.Labels
import Wordstack.Proofs.Lines

namespace Wordstack

variable {k : Nat} {l : String}

/-! ## Where labels lead -/

/-- What a label may stand for: the text or the function at an index, or a builtin. -/
inductive Target
  | text (index : Nat)
  | function (index : Nat)
  | builtin (b : Builtin)
deriving DecidableEq

namespace Target

/-- The word that stands for a target in a machine. -/
def address (m : Machine) : Target → UInt64
  | .text k => m.strings.getD k 0
  | .function j => Machine.functionBase + 16 * j.toUInt64
  | .builtin _ => Machine.functionBase - 16

/-- The symbol that stands for a target in assembly. -/
def symbol (p : Program) : Target → Option String
  | .text k => some (StringTable.label k)
  | .function j => p.functions[j]?.map fun f => if f.external then f.name else Assembly.functionLabel f.name
  | .builtin _ => some Assembly.putcharLabel

end Target

namespace Program

variable (p : Program) (l : String)

/-- A string comes before a function of the same name, and a function before a builtin. -/
def target? : Option Target :=
  match p.strings.lookup? l with
  | some k => some (.text k)
  | none =>
    match p.functions.findIdx? (·.name == l) with
    | some j => some (.function j)
    | none => (Builtin.ofName? l).map .builtin

/-- The label leads to the target both in every machine that runs the program and in its assembly. A label
that leads nowhere is a fault in the machine and has no symbol. -/
def Resolves : Option Target → Prop
  | some t => (∀ m : Machine, m.program = p → Machine.labelAddress l m = .ok (t.address m) m) ∧
      Assembly.symbol? p l = t.symbol p
  | none => (∀ m : Machine, m.program = p → Machine.labelAddress l m = .error (.unknownFunction l) m) ∧
      Assembly.symbol? p l = none

variable {p l}

theorem findIdx?_function {j : Nat} (h : p.functions.findIdx? (·.name == l) = some j) :
    ∃ f, p.functions[j]? = some f ∧ f.name = l ∧ p.function? l = some f := by
  obtain ⟨hj, hname, hmin⟩ := List.findIdx?_eq_some_iff_getElem.mp h
  refine ⟨p.functions[j], List.getElem?_eq_getElem hj, eq_of_beq hname, ?_⟩
  exact List.find?_eq_some_iff_getElem.mpr ⟨hname, j, hj, rfl, fun i hi => by simpa using hmin i hi⟩

theorem findIdx?_eq_none_iff : p.functions.findIdx? (·.name == l) = none ↔ p.function? l = none := by
  rw [List.findIdx?_eq_none_iff, function?, List.find?_eq_none]
  simp

theorem labelAddress_eq (m : Machine) : Machine.labelAddress l m = match m.program.target? l with
    | some t => .ok (t.address m) m
    | none => .error (.unknownFunction l) m := by
  unfold target? Machine.labelAddress
  simp only [bind, EStateM.bind, Machine.get_eq]
  cases m.program.strings.lookup? l with
  | some k => rfl
  | none =>
    cases m.program.functions.findIdx? (·.name == l) with
    | some j => rfl
    | none => cases Builtin.ofName? l <;> rfl

/-- The assembly resolves labels as the machine does, but for a label that only reads as that of a
string. -/
theorem symbol?_eq (hl : ∀ k, p.strings.lookup? l = some k → l = StringTable.label k) :
    Assembly.symbol? p l = (p.target? l).bind (Target.symbol p) := by
  unfold target? Assembly.symbol?
  cases hs : p.strings.lookup? l with
  | some k =>
    have := hl k hs
    subst this
    rfl
  | none =>
    simp only [Option.isSome_none]
    cases hj : p.functions.findIdx? (·.name == l) with
    | some j =>
      obtain ⟨f, hf, -, hfind⟩ := findIdx?_function hj
      simp [hfind, Target.symbol, hf]
    | none =>
      rw [findIdx?_eq_none_iff.mp hj]
      cases Builtin.ofName? l <;> rfl

theorem resolves_target? (hl : ∀ k, p.strings.lookup? l = some k → l = StringTable.label k) :
    p.Resolves l (p.target? l) := by
  have hsymbol := symbol?_eq hl
  have haddress : ∀ m : Machine, m.program = p → Machine.labelAddress l m =
      match p.target? l with
      | some t => .ok (t.address m) m
      | none => .error (.unknownFunction l) m := fun m hm => hm ▸ labelAddress_eq m
  cases ht : p.target? l with
  | none | some t =>
    rw [ht] at hsymbol haddress
    exact ⟨haddress, hsymbol⟩

theorem target?_label (hk : k < p.strings.size) : p.target? (StringTable.label k) = some (.text k) := by
  unfold target?
  rw [StringTable.lookup?_label, if_pos hk]

/-- The label of a text leads to that text. -/
theorem resolves_text (hk : k < p.strings.size) : p.Resolves (StringTable.label k) (some (.text k)) := by
  rw [← target?_label hk]
  refine resolves_target? fun j hj => ?_
  rw [StringTable.lookup?_label, if_pos hk] at hj
  rw [Option.some.inj hj]

/-- A name that does not read as the label of a text leads to the function of that name, if there is one. -/
theorem resolves_function {f : Function} (hf : p.function? l = some f) (hl : p.strings.lookup? l = none) :
    ∃ j, p.functions[j]? = some f ∧ p.Resolves l (some (.function j)) := by
  cases hj : p.functions.findIdx? (·.name == l) with
  | none => cases (findIdx?_eq_none_iff.mp hj).symm.trans hf
  | some j =>
    obtain ⟨f', hf', -, hfind⟩ := findIdx?_function hj
    cases hfind.symm.trans hf
    have ht : p.target? l = some (.function j) := by
      unfold target?
      rw [hl, hj]
    refine ⟨j, hf', ht ▸ resolves_target? fun k hk => ?_⟩
    cases hl.symm.trans hk

theorem resolves_builtin {b : Builtin} (hf : p.function? l = none) (hb : Builtin.ofName? l = some b)
    (hl : p.strings.lookup? l = none) : p.Resolves l (some (.builtin b)) := by
  have ht : p.target? l = some (.builtin b) := by
    unfold target?
    rw [hl, findIdx?_eq_none_iff.mpr hf, hb]
    rfl
  exact ht ▸ resolves_target? fun k hk => by cases hl.symm.trans hk

theorem resolves_none (hf : p.function? l = none) (hb : Builtin.ofName? l = none) (hl : p.strings.lookup? l = none) :
    p.Resolves l none := by
  have ht : p.target? l = none := by
    unfold target?
    rw [hl, findIdx?_eq_none_iff.mpr hf, hb]
    rfl
  exact ht ▸ resolves_target? fun k hk => by cases hl.symm.trans hk

variable (p l) in
/-- The label is taken for that of a text by the machine, and for a symbol by itself by the assembly. -/
def ReadsAsText (k : Nat) : Prop :=
  (∀ m : Machine, m.program = p → Machine.labelAddress l m = .ok ((Target.text k).address m) m) ∧
    Assembly.symbol? p l = some l

theorem readsAsText (hl : p.strings.lookup? l = some k) : p.ReadsAsText l k := by
  refine ⟨fun m hm => ?_, ?_⟩
  · subst hm
    rw [labelAddress_eq]
    unfold target?
    rw [hl]
  · unfold Assembly.symbol?
    rw [hl]
    rfl

/-! ## Functions by their names -/

/-- The functions stand in the order of their names, each name once. -/
def Sorted (fs : List Function) : Prop := fs.Pairwise fun f g => f.name < g.name

theorem Sorted.insertSorted (f : Function) {fs : List Function} (h : Sorted fs) : Sorted (Program.insertSorted f fs) := by
  induction fs with
  | nil => exact List.pairwise_singleton _ _
  | cons g gs ih =>
    obtain ⟨hg, hgs⟩ := List.pairwise_cons.mp h
    unfold Program.insertSorted
    split
    next hlt =>
      refine List.pairwise_cons.mpr ⟨List.forall_mem_cons.mpr ⟨hlt, fun k hk => String.lt_trans hlt (hg k hk)⟩, h⟩
    split
    next heq => exact List.pairwise_cons.mpr ⟨fun k hk => heq ▸ hg k hk, hgs⟩
    next hnlt hne =>
      refine List.pairwise_cons.mpr ⟨fun k hk => ?_, ih hgs⟩
      rcases mem_insertSorted hk with rfl | hk
      · refine Classical.byContradiction fun hn => hne (String.le_antisymm ?_ ?_)
        · exact String.not_lt.mp hn
        · exact String.not_lt.mp hnlt
      · exact hg k hk

theorem sorted_foldl_insert (gs : List Function) {p : Program} (h : Sorted p.functions) :
    Sorted (gs.foldl insert p).functions := by
  induction gs generalizing p with
  | nil => exact h
  | cons g gs ih => exact ih (h.insertSorted g)

theorem sorted_ofItems (items : List Stmt) (scope : Scope) : Sorted (ofItems items scope).program.functions := by
  rw [ofItems_eq]
  exact sorted_foldl_insert _ .nil

theorem Sorted.nodup {fs : List Function} (h : Sorted fs) : (fs.map (·.name)).Nodup :=
  List.pairwise_map.mpr (h.imp fun hlt => String.ne_of_lt hlt)

end Program

/-! ## Texts in memory -/

namespace Machine

theorem getElem?_stringAddresses (start : UInt64) (bs : List (List UInt8)) (hk : k < bs.length) :
    (stringAddresses start bs)[k]? = some (start + (bs.take k).flatten.length.toUInt64) := by
  induction bs generalizing start k with
  | nil => simp at hk
  | cons b bs ih =>
    cases k with
    | zero => simp [stringAddresses]
    | succ k =>
      rw [stringAddresses, List.getElem?_cons_succ, ih _ (Nat.lt_of_succ_lt_succ hk), List.take_succ_cons,
        List.flatten_cons, List.length_append]
      exact congrArg some (by rw [UInt64.add_assoc, ← UInt64.ofNat_add])

/-- When the machine starts, each text of the program lies in memory where its address says. -/
theorem text_ofProgram (p : Program) (fuel : Nat) {s : String} (hs : p.strings.texts[k]? = some s) :
    ∃ o, (ofProgram p fuel).strings[k]? = some (Memory.base + o.toUInt64) ∧
      ((ofProgram p fuel).memory.bytes.toList.drop o).take (StringTable.bytes s).length = StringTable.bytes s := by
  obtain ⟨hk, hget⟩ := List.getElem?_eq_some_iff.mp hs
  let front := p.globals.flatMap Memory.wordBytes ++ ((p.strings.texts.take k).map StringTable.bytes).flatten
  have hsplit : p.strings.texts = p.strings.texts.take k ++ s :: p.strings.texts.drop (k + 1) := by
    rw [← hget, List.getElem_cons_drop, List.take_append_drop]
  have hdata : p.data = front ++ (StringTable.bytes s ++ ((p.strings.texts.drop (k + 1)).map StringTable.bytes).flatten) := by
    unfold Program.data
    conv => lhs; rw [hsplit]
    rw [List.map_append, List.flatten_append, List.map_cons, List.flatten_cons, List.append_assoc]
  refine ⟨front.length, ?_, ?_⟩
  · have hstrings : (ofProgram p fuel).strings = stringAddresses
      (Memory.base + (p.globals.flatMap Memory.wordBytes).length.toUInt64) (p.strings.texts.map StringTable.bytes) := rfl
    rw [hstrings, getElem?_stringAddresses _ _ (by rwa [List.length_map]), List.length_append, List.map_take]
    exact congrArg some (by rw [UInt64.add_assoc, ← UInt64.ofNat_add])
  · rw [memory_ofProgram, hdata]
    simp

end Machine

/-! ## Source texts -/

/-- What an atom with the label `l` names in an accepted program, and where its label leads. -/
inductive Program.Names (p : Program) (scope : Scope) (t : Token) (l : String) : Prop
  /-- A string literal: always to its text. -/
  | text {s : String} {k : Nat} (hk : t.kind = .string) (hs : t.literal = .text s) (hl : l = StringTable.label k)
    (ht : p.strings.texts[k]? = some s) (hr : p.Resolves l (some (.text k)))
  /-- A function: to that function, unless its name reads as the label of a text. -/
  | function {f : Function} (hk : t.isIdent = true) (hl : l = t.text) (hf : p.function? l = some f)
    (hr : p.strings.lookup? l = none → ∃ j, p.functions[j]? = some f ∧ p.Resolves l (some (.function j)))
    (ht : ∀ k, p.strings.lookup? l = some k → p.ReadsAsText l k)
  | builtin {b : Builtin} (hk : t.isIdent = true) (hl : l = t.text) (hb : Builtin.ofName? l = some b)
    (hr : p.Resolves l (some (.builtin b)))
  /-- A function that is declared and has no body: there is nothing of its own that it could lead to. -/
  | prototype {e : Entry} (hk : t.isIdent = true) (hl : l = t.text) (he : scope.get? l = some e) (hp : e.kind = .prototype)
    (hf : p.function? l = none)
    (hr : p.strings.lookup? l = none → Builtin.ofName? l = none → p.Resolves l none)

theorem lookup?_builtin {b : Builtin} (h : Builtin.ofName? l = some b) (t : StringTable) : t.lookup? l = none := by
  have hname : b.name = l := by
    have := List.find?_some h
    exact eq_of_beq this
  subst hname
  cases b
  rfl

theorem names_of_labels {items : List Stmt} {scope : Scope} (hw : Stmt.WholeAll items) (hs : ∀ p ∈ scope, p.2.OK items p.1)
    (hc : ∀ e ∈ (Program.ofItems items scope).errors, e.diagnostic.isWarning = true) {t : Token}
    (h : (Vocabulary.ofItems items scope).Labels t l) : (Program.ofItems items scope).program.Names scope t l := by
  obtain ⟨-, -, hsome⟩ := functions_ofItems hw hs hc
  have hglobals : ∀ x, (Vocabulary.ofItems items scope).globals.get? x = (scope.get? x).map fun e =>
      e.info (if e.kind = .var then ((Layout.ofItems scope items).offsets.get? x).map .static else none) :=
    Layout.get?_symbols scope _
  cases h with
  | text hk hs ht => exact .text hk hs rfl ht (Program.resolves_text (List.getElem?_eq_some_iff.mp ht).1)
  | function hk hg hf =>
    rw [hglobals] at hg
    obtain ⟨e, he, rfl⟩ := Option.map_eq_some_iff.mp hg
    rcases hf with hf | hf
    · obtain ⟨f, hfind⟩ := Option.isSome_iff_exists.mp ((hsome t.text).mpr ⟨e, he, hf⟩)
      exact .function hk rfl hfind (Program.resolves_function hfind) fun _ => Program.readsAsText
    · have hnone : (Program.ofItems items scope).program.function? t.text = none := by
        refine Option.not_isSome_iff_eq_none.mp fun h => ?_
        obtain ⟨e', he', hk'⟩ := (hsome t.text).mp h
        cases he.symm.trans he'
        cases hf.symm.trans hk'
      exact .prototype hk rfl he hf hnone fun hl hb => Program.resolves_none hnone hb hl
  | builtin hk hb hg =>
    refine .builtin hk rfl hb (Program.resolves_builtin ?_ hb (lookup?_builtin hb _))
    refine Option.not_isSome_iff_eq_none.mp fun h => ?_
    obtain ⟨e, he, hkind⟩ := (hsome t.text).mp h
    exact hg (e.info _) (by rw [hglobals, he]; rfl) (.inl hkind)

theorem callable_of_arities {p : Program} {a : Nat × Nat} (h : p.arities l = some a) :
    (p.function? l).isSome ∨ (Builtin.ofName? l).isSome := by
  unfold Program.arities at h
  split at h
  next f hf => exact .inl (by rw [hf]; rfl)
  next hnone =>
    obtain ⟨b, hb, -⟩ := Option.map_eq_some_iff.mp h
    exact .inr (by rw [hb]; rfl)

/-- The instructions of an accepted program stand where they say. -/
theorem index_of_accepted {items : List Stmt} (hw : Stmt.WholeAll items)
    (ha : ScopeErrors.Accepted (Scope.ofItems items).errors)
    (hc : ∀ e ∈ (Program.ofItems items (Scope.ofItems items).scope).errors, e.diagnostic.isWarning = true) :
    ∀ f ∈ (Program.ofItems items (Scope.ofItems items).scope).program.init ::
        (Program.ofItems items (Scope.ofItems items).scope).program.functions,
      ∀ (j : Nat) (i : Instr), f.code[j]? = some i → i.index = j := by
  intro f hf j i hi
  obtain ⟨height, setup, hmap⟩ := heightMap_of_getElem? hw ha hc hf hi
  exact hmap.index j i hi

/-- In a program that compiles, a call names a function of the program or a builtin; a label that is used
as a value goes back to an atom of the text and leads to what the atom names, with the exceptions that
`Program.Names` tells of; each text lies in memory where its label leads; and the assembly is as `Assembly.Linked`
says. -/
theorem labels_resolved {name source : String} {c : Compilation} (h : compile name source = .ok c) :
    (∀ f ∈ c.program.init :: c.program.functions, ∀ i ∈ f.code, i.op = .call →
      ∃ l, i.operand = .label l ∧ ((c.program.function? l).isSome ∨ (Builtin.ofName? l).isSome)) ∧
    (∀ f ∈ c.program.init :: c.program.functions, ∀ i ∈ f.code, ∀ l, i.op = .pushGea → i.operand = .label l →
      ∃ t ∈ Stmt.atomsAll (parse source).roots, t.span = i.span ∧
        c.program.Names (Scope.ofItems (parse source).roots).scope t l) ∧
    (∀ (k : Nat) (s : String) (fuel : Nat), c.program.strings.texts[k]? = some s →
      ∃ o, (Machine.ofProgram c.program fuel).strings[k]? = some (Memory.base + o.toUInt64) ∧
        ((Machine.ofProgram c.program fuel).memory.bytes.toList.drop o).take (StringTable.bytes s).length =
          StringTable.bytes s) ∧
    c.assembly = Assembly.text (Assembly.ofProgram c.program) ∧ Assembly.Linked c.program := by
  have hassembly : c.assembly = Assembly.text (Assembly.ofProgram c.program) := by
    unfold compile at h
    dsimp only at h
    split at h
    · cases h
    · rw [← Except.ok.inj h]
  obtain ⟨hprogram, hparse, hscope, hcode⟩ := of_compile h
  have hwhole := whole_of_parse hparse
  have hsorted := Program.sorted_ofItems (parse source).roots (Scope.ofItems (parse source).roots).scope
  have hlinked := Assembly.linked hsorted.nodup (index_of_accepted hwhole hscope hcode)
  refine ⟨fun f hf i hi hop => ?_, fun f hf i hi l hop hl => ?_, fun k s fuel => Machine.text_ofProgram _ fuel, hassembly,
    hprogram ▸ hlinked⟩
  · rw [hprogram] at hf ⊢
    obtain ⟨_, hok⟩ := heightOK_of_mem hwhole hscope hcode hf hi
    obtain ⟨l, a, hl, ha⟩ := hok.call hop
    exact ⟨l, hl, callable_of_arities ha⟩
  · rw [hprogram] at hf ⊢
    rcases covers_ofItems hf hi l hl with hcall | ⟨-, t, ht, hspan, hlabels⟩
    · cases hop.symm.trans hcall
    · exact ⟨t, ht, hspan, names_of_labels hwhole (entries_ok hwhole hscope) hcode hlabels⟩

/-- A function that is used as a value next to a string. -/
theorem labels_resolved_value :
    ∃ c, compile "value" "f:()=\x7b\x7dg:()=\x7b\"a\";f;\x7d" = .ok c ∧
      ∃ g ∈ c.program.functions, ∃ i ∈ g.code, i.op = .pushGea ∧ i.operand = .label "f" ∧
        ∃ t ∈ Stmt.atomsAll (parse "f:()=\x7b\x7dg:()=\x7b\"a\";f;\x7d").roots, t.span = i.span ∧
          c.program.Names (Scope.ofItems (parse "f:()=\x7b\x7dg:()=\x7b\"a\";f;\x7d").roots).scope t "f" := by
  obtain ⟨c, hc, hp⟩ := compile_of_errors "value"
    (show (SourceUnit.ofSource "f:()=\x7b\x7dg:()=\x7b\"a\";f;\x7d").errors.any CompileError.isFatal = false by decide +kernel)
  have hany : (c.program.functions.any fun g => g.code.toList.any fun i =>
      i.op = .pushGea ∧ i.operand = .label "f") = true := by
    rw [hp]
    decide +kernel
  obtain ⟨g, hg, hany⟩ := List.any_eq_true.mp hany
  obtain ⟨i, hi, hop⟩ := List.any_eq_true.mp hany
  have hi : i ∈ g.code := Array.mem_toList_iff.mp hi
  obtain ⟨hop, hl⟩ := of_decide_eq_true hop
  exact ⟨c, hc, g, hg, i, hi, hop, hl, (labels_resolved hc).2.1 g (List.mem_cons_of_mem _ hg) i hi "f" hop hl⟩

/-- A function whose name reads as the label of a text: what its name leads to is the text, in every machine. -/
theorem function_hidden_by_text :
    ∃ c, compile "hidden" "str_0:()=\x7b\x7dg:()=\x7b\"a\";str_0;\x7d" = .ok c ∧
      (c.program.function? "str_0").isSome ∧
      ∀ m : Machine, m.program = c.program → Machine.labelAddress "str_0" m = .ok (m.strings.getD 0 0) m := by
  obtain ⟨c, hc, hp⟩ := compile_of_errors "hidden"
    (show (SourceUnit.ofSource "str_0:()=\x7b\x7dg:()=\x7b\"a\";str_0;\x7d").errors.any CompileError.isFatal = false by
      decide +kernel)
  have hfacts : ((c.program.function? "str_0").isSome, c.program.strings.lookup? "str_0") = (true, some 0) := by
    rw [hp]
    decide +kernel
  obtain ⟨hsome, hlookup⟩ := Prod.mk.inj hfacts
  exact ⟨c, hc, hsome, (Program.readsAsText hlookup).1⟩

end Wordstack
