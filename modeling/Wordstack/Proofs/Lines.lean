/-
The lines of an assembly file: which symbols they define and which they refer to. No
symbol is defined twice, and what is referred to is defined in the same block, in the
file or elsewhere.
-/
import Wordstack.Assembly.Emit

namespace Wordstack

variable {k : Nat} {line : Line} {s : String}

/-! ## Labels of strings -/

namespace StringTable

theorem toList_label (k : Nat) : (label k).toList = 's' :: 't' :: 'r' :: '_' :: Nat.toDigits 10 k := by
  have : label k = "str_" ++ toString k := rfl
  rw [this, String.toList_append, Nat.toString_eq_repr, Nat.toList_repr]
  rfl

theorem index?_toDigits (k : Nat) : index? (Nat.toDigits 10 k) = some k := by
  have hdigit : ∀ c ∈ Nat.toDigits 10 k, c.isDigit = true := fun c hc =>
    Nat.isDigit_of_mem_toDigits (by decide) (by decide) hc
  have hne : Nat.toDigits 10 k ≠ [] := Nat.toDigits_ne_nil
  have hvalue : (Nat.toDigits 10 k).foldl (fun n d => 10 * n + (d.toNat - '0'.toNat)) 0 = k :=
    Nat.ofDigitChars_toDigits (by decide) (by decide)
  unfold index?
  split
  next ds hds =>
    rw [hds] at hdigit
    cases hdigit '+' List.mem_cons_self
  · rw [if_neg (by simpa [hne] using hdigit), hvalue]

theorem lookup?_label (t : StringTable) (k : Nat) : t.lookup? (label k) = if k < t.size then some k else none := by
  unfold lookup?
  rw [toList_label]
  simp only [index?_toDigits]
  by_cases hk : k < t.size <;> simp [Option.filter, hk]

theorem label_injective {j : Nat} (h : label j = label k) : j = k := by
  have h := congrArg String.toList h
  rw [toList_label, toList_label] at h
  have hdigits : Nat.toDigits 10 j = Nat.toDigits 10 k := by simpa using h
  have hindex := congrArg index? hdigits
  rw [index?_toDigits, index?_toDigits] at hindex
  exact Option.some.inj hindex

end StringTable

/-! ## Lines of assembly -/

namespace Assembly

/-- The symbol that a line defines. -/
def Line.definition? : Line → Option String
  | .label s | .item s _ => some s
  | _ => none

/-- The symbol that a line says is defined elsewhere. -/
def Line.external? : Line → Option String
  | .external s => some s
  | _ => none

def Address.symbols : Address → List String
  | .symbol s | .inSymbol s _ => [s]
  | _ => []

def Source.symbols : Source → List String
  | .mem a | .qword a => a.symbols
  | _ => []

/-- The symbols that an operation refers to. -/
def Op.symbols : Op → List String
  | .binary _ t s => t.symbols ++ s.symbols
  | .transfer _ l => [l]
  | .plain _ | .unary .. => []

def Line.symbols : Line → List String
  | .op o => o.symbols
  | _ => []

/-- A symbol that begins with a dot is known only between the symbols without one around it. -/
def isLocal (s : String) : Bool := s.toList.head? == some '.'

/-- The symbols that lines define for the whole file. -/
def definitions (lines : List Line) : List String := (lines.filterMap Line.definition?).filter fun s => !isLocal s

/-- The routines and functions, each with its own local symbols. -/
def blocks (p : Program) : List (List Line) :=
  [entryPoint p, putcharRoutine, probeRoutine, functionLines p initLabel p.init] ++
    (p.functions.filter (!·.external)).map fun f => functionLines p (functionLabel f.name) f

theorem ofProgram_eq (p : Program) :
    ofProgram p = header p ++ data p ++ [.directive "section .text"] ++ (blocks p).flatten := by
  simp [ofProgram, blocks, List.flatMap_def]

/-! ## The lines of an instruction -/

/-- Operations only, which refer to symbols as `R` says. -/
def Refers (R : String → Prop) (lines : List Line) : Prop := ∀ line ∈ lines, ∃ o, line = .op o ∧ ∀ s ∈ o.symbols, R s

/-- An operation that refers to no symbol. -/
def Line.isQuiet : Line → Bool
  | .op o => o.symbols.isEmpty
  | _ => false

namespace Refers

variable {R : String → Prop} {a b : List Line}

theorem append (ha : Refers R a) (hb : Refers R b) : Refers R (a ++ b) := List.forall_mem_append.mpr ⟨ha, hb⟩

theorem cons {o : Op} (ho : ∀ s ∈ o.symbols, R s) (hb : Refers R b) : Refers R (.op o :: b) :=
  List.forall_mem_cons.mpr ⟨⟨o, rfl, ho⟩, hb⟩

theorem quiet (h : a.all Line.isQuiet = true) : Refers R a := by
  intro line hline
  have hq := List.all_eq_true.mp h line hline
  cases line with
  | op o =>
    refine ⟨o, rfl, fun s hs => ?_⟩
    rw [List.isEmpty_iff.mp hq] at hs
    cases hs
  | _ => cases hq

theorem flatMap {α : Type} {xs : List α} {g : α → List Line} (h : ∀ x ∈ xs, Refers R (g x)) : Refers R (xs.flatMap g) := by
  intro line hline
  obtain ⟨x, hx, hline⟩ := List.mem_flatMap.mp hline
  exact h x hx line hline

theorem filterMap_definition? (h : Refers R a) : a.filterMap Line.definition? = [] := by
  refine List.filterMap_eq_nil_iff.mpr fun line hline => ?_
  obtain ⟨o, rfl, -⟩ := h line hline
  rfl

end Refers

/-- What the code of a function may refer to: its own labels, the data and routines that are always there,
functions of the program, and what reads as the label of a string. -/
inductive Reachable (p : Program) (f : Function) : String → Prop
  | index {t : Nat} (ht : t ≤ f.length) : Reachable p f (indexLabel t)
  | data {s : String} (hs : s ∈ ["exec_stack", "globals", putcharLabel, probeLabel]) : Reachable p f s
  | function {g : Function} (hg : g ∈ p.functions) (hd : g.external = false) : Reachable p f (functionLabel g.name)
  | external {g : Function} (hg : g ∈ p.functions) (he : g.external = true) : Reachable p f g.name
  | text {s : String} {k : Nat} (hk : p.strings.lookup? s = some k) : Reachable p f s

variable {p : Program} {f : Function}

theorem reachable_symbol? {l : String} (h : symbol? p l = some s) : Reachable p f s := by
  unfold symbol? at h
  split at h
  next hl =>
    obtain ⟨k, hk⟩ := Option.isSome_iff_exists.mp hl
    obtain rfl := Option.some.inj h
    exact .text hk
  · split at h
    next g hg =>
      have hmem := List.mem_of_find?_eq_some hg
      obtain rfl := Option.some.inj h
      split
      next he => exact .external hmem he
      next he => exact .function hmem (by simpa using he)
    · obtain ⟨_, -, rfl⟩ := Option.map_eq_some_iff.mp h
      exact .data (by simp)

theorem refers_externalCall {g : Function} (hg : g ∈ p.functions) (he : g.external = true) :
    Refers (Reachable p f) (externalCall g) := by
  unfold externalCall
  refine .append (.append (.append (.append (.flatMap fun r _ => .quiet rfl) (.quiet rfl)) (.flatMap fun k _ => .quiet rfl))
    (.cons (fun s hs => ?_) (.quiet rfl))) ?_
  · obtain rfl := List.mem_singleton.mp hs
    exact .external hg he
  · split
    · exact .quiet rfl
    · exact .quiet rfl

theorem refers_callNamed (name : String) : Refers (Reachable p f) (callNamed p name) := by
  unfold callNamed
  split
  next g hg =>
    have hmem := List.mem_of_find?_eq_some hg
    split
    next he => exact refers_externalCall hmem he
    next he =>
      refine .cons (fun s hs => ?_) (.quiet rfl)
      obtain rfl := List.mem_singleton.mp hs
      exact .function hmem (by simpa using he)
  · split
    · refine .cons (fun s hs => ?_) (.quiet rfl)
      obtain rfl := List.mem_singleton.mp hs
      exact .data (by simp)
    · exact .quiet rfl

theorem refers_jumpLines (i : Instr) (op : Transfer) {lead : List Line} (hlead : lead.all Line.isQuiet = true) :
    Refers (Reachable p f) (jumpLines f i op lead) := by
  unfold jumpLines
  split
  next t ht =>
    refine .append (.quiet hlead) (.cons (fun s hs => ?_) (.quiet rfl))
    obtain rfl := List.mem_singleton.mp hs
    exact .index (by simpa using (Option.filter_eq_some_iff.mp ht).2)
  · exact .quiet rfl

theorem quiet_change? {op : Opcode} {lines : List Line} (h : change? op = some lines) : lines.all Line.isQuiet = true := by
  unfold change? at h
  split at h <;> cases h <;> rfl

theorem quiet_combine? {op : Opcode} {lines : List Line} (h : combine? op = some lines) : lines.all Line.isQuiet = true := by
  unfold combine? at h
  split at h <;> cases h <;> rfl

/-- All lines of an instruction are operations, and they refer to nothing out of reach. -/
theorem refers_instrLines (p : Program) (f : Function) (i : Instr) : Refers (Reachable p f) (instrLines p f i) := by
  have hdata : ∀ {s : String}, s ∈ ["exec_stack", "globals", putcharLabel, probeLabel] → ∀ s' ∈ [s], Reachable p f s' :=
    fun hs s' hs' => by
      obtain rfl := List.mem_singleton.mp hs'
      exact .data hs
  unfold instrLines
  split
  case h_2 => exact .cons (hdata (by simp)) (.quiet rfl)
  case h_4 =>
    dsimp only
    split <;> exact .quiet rfl
  case h_6 => exact .cons (hdata (by simp)) (.quiet rfl)
  case h_7 => exact .cons (hdata (by simp)) (.quiet rfl)
  case h_8 =>
    split
    next s hs =>
      refine .cons (fun s' hs' => ?_) (.quiet rfl)
      obtain rfl := List.mem_singleton.mp hs'
      exact reachable_symbol? hs
    · exact .quiet rfl
  case h_14 =>
    refine .append ?_ (.quiet rfl)
    split
    · exact .cons (fun s hs => by cases hs) (.cons (hdata (by simp)) (.quiet rfl))
    · exact .quiet rfl
  case h_18 => exact refers_jumpLines i _ rfl
  case h_19 => exact refers_jumpLines i _ rfl
  case h_20 => exact refers_jumpLines i _ rfl
  case h_22 => exact refers_callNamed _
  case h_24 =>
    split
    next hlines => exact .append (.append (.quiet rfl) (.quiet (quiet_change? hlines))) (.quiet rfl)
    next hlines => exact .append (.append (.quiet rfl) (.quiet (quiet_combine? hlines))) (.quiet rfl)
    · exact .quiet rfl
  all_goals exact .quiet rfl

/-! ## Definitions -/

theorem definitions_append (a b : List Line) : definitions (a ++ b) = definitions a ++ definitions b := by
  simp [definitions]

theorem filterMap_functionLines (p : Program) (label : String) (f : Function) :
    (functionLines p label f).filterMap Line.definition? =
      label :: f.code.toList.map (fun i => indexLabel i.index) ++ [indexLabel f.length] := by
  have hcode : ∀ code : List Instr,
      (code.flatMap fun i => Line.label (indexLabel i.index) :: instrLines p f i).filterMap Line.definition? =
        code.map fun i => indexLabel i.index := by
    intro code
    induction code with
    | nil => rfl
    | cons i code ih =>
      rw [List.flatMap_cons, List.filterMap_append, ih, List.filterMap_cons,
        (refers_instrLines p f i).filterMap_definition?]
      rfl
  unfold functionLines
  rw [List.filterMap_append, List.filterMap_append, hcode]
  rfl

theorem isLocal_indexLabel (t : Nat) : isLocal (indexLabel t) = true := by
  have : indexLabel t = ".IROP_" ++ toString t := rfl
  rw [this, isLocal, String.toList_append]
  rfl

theorem indexLabel_injective {j : Nat} (h : indexLabel j = indexLabel k) : j = k := by
  have hlabel : ∀ t, (indexLabel t).toList = ".IROP_".toList ++ Nat.toDigits 10 t := by
    intro t
    have : indexLabel t = ".IROP_" ++ toString t := rfl
    rw [this, String.toList_append, Nat.toString_eq_repr, Nat.toList_repr]
  have h := congrArg String.toList h
  rw [hlabel, hlabel] at h
  have hindex := congrArg StringTable.index? (List.append_cancel_left h)
  rw [StringTable.index?_toDigits, StringTable.index?_toDigits] at hindex
  exact Option.some.inj hindex

theorem isLocal_functionLabel (name : String) : isLocal (functionLabel name) = false := by
  rw [functionLabel, isLocal, String.toList_append]
  rfl

theorem isLocal_label (k : Nat) : isLocal (StringTable.label k) = false := by
  rw [isLocal, StringTable.toList_label]
  rfl

/-- A function defines its own symbol and local ones. -/
theorem definitions_functionLines (p : Program) {label : String} (hl : isLocal label = false) (f : Function) :
    definitions (functionLines p label f) = [label] := by
  rw [definitions, filterMap_functionLines]
  simp [hl, isLocal_indexLabel]

theorem definitions_header (p : Program) : definitions (header p) = [] := by
  have hnone : (header p).filterMap Line.definition? = [] := by
    refine List.filterMap_eq_nil_iff.mpr fun line hline => ?_
    simp only [header, List.mem_append, List.mem_map] at hline
    rcases hline with (hline | ⟨f, -, rfl⟩) | hline
    · simp only [List.mem_cons, List.not_mem_nil, or_false] at hline
      rcases hline with rfl | rfl | rfl | rfl | rfl | rfl <;> rfl
    · rfl
    · simp only [List.mem_cons, List.not_mem_nil, or_false] at hline
      rcases hline with rfl | rfl | rfl <;> rfl
  rw [definitions, hnone]
  rfl

theorem map_fst_entries (t : StringTable) : t.entries.map (·.1) = (List.range t.size).map StringTable.label := by
  rw [StringTable.entries, List.map_map, StringTable.size, List.range_eq_range', ← List.zipIdx_map_snd, List.map_map]
  rfl

/-- The data of a program, before its strings. -/
def dataSymbols : List String := ["exec_stack", "write_count", "char_buffer", "globals"]

def routineSymbols : List String := ["mainCRTStartup", putcharLabel, probeLabel, initLabel]

theorem definitions_data (p : Program) :
    definitions (data p) = dataSymbols ++ (List.range p.strings.size).map StringTable.label := by
  have hwords : (if p.globals.isEmpty then [.word 0] else p.globals.map .word : List Line).filterMap Line.definition? = [] := by
    split
    · rfl
    · simp [Line.definition?]
  have hstrings : ∀ line : String × List UInt8 → Line, (∀ e, (line e).definition? = some e.1) →
      (p.strings.entries.map line).filterMap Line.definition? = (List.range p.strings.size).map StringTable.label := by
    intro line hline
    rw [← map_fst_entries, List.filterMap_map, ← List.filterMap_eq_map]
    exact congrArg (List.filterMap · _) (funext hline)
  have hlocal : ∀ s ∈ dataSymbols ++ (List.range p.strings.size).map StringTable.label, (!isLocal s) = true := by
    have hdata : ∀ s ∈ dataSymbols, (!isLocal s) = true := by decide
    intro s hs
    rcases List.mem_append.mp hs with hs | hs
    · exact hdata s hs
    · obtain ⟨k, -, rfl⟩ := List.mem_map.mp hs
      rw [isLocal_label]
      rfl
  unfold data definitions
  rw [List.filterMap_append, List.filterMap_append, List.filterMap_append, hwords, hstrings _ fun _ => rfl]
  exact (List.append_nil _).symm ▸ List.filter_eq_self.mpr hlocal

theorem definitions_entryPoint (p : Program) : definitions (entryPoint p) = ["mainCRTStartup"] := by
  unfold entryPoint
  split <;> rfl

/-- All symbols of a file: those of its data, one for each string, those of the routines, and one for each
function that is not defined elsewhere. -/
theorem definitions_ofProgram (p : Program) : definitions (ofProgram p) =
    dataSymbols ++ (List.range p.strings.size).map StringTable.label ++ routineSymbols ++
      (p.functions.filter (!·.external)).map fun f => functionLabel f.name := by
  have hfunctions : ∀ fs : List Function,
      definitions (fs.flatMap fun f => functionLines p (functionLabel f.name) f) = fs.map fun f => functionLabel f.name := by
    intro fs
    induction fs with
    | nil => rfl
    | cons f fs ih =>
      rw [List.flatMap_cons, definitions_append, ih, definitions_functionLines p (isLocal_functionLabel _)]
      rfl
  have hinit : definitions (functionLines p initLabel p.init) = [initLabel] := definitions_functionLines p rfl _
  unfold ofProgram
  simp only [definitions_append, definitions_header, definitions_data, definitions_entryPoint, hinit, hfunctions,
    List.nil_append, List.append_assoc]
  rfl

theorem label_ne_functionLabel (k : Nat) (name : String) : StringTable.label k ≠ functionLabel name := by
  intro h
  have h := congrArg String.toList h
  rw [StringTable.toList_label, functionLabel, String.toList_append] at h
  cases (List.cons.inj h).1

theorem functionLabel_injective {a b : String} (h : functionLabel a = functionLabel b) : a = b := by
  have h := congrArg String.toList h
  rw [functionLabel, functionLabel, String.toList_append, String.toList_append] at h
  exact String.toList_inj.mp (List.append_cancel_left h)

/-- No symbol is defined twice. -/
theorem nodup_definitions {p : Program} (hp : (p.functions.map (·.name)).Nodup) : (definitions (ofProgram p)).Nodup := by
  have hlabel : ∀ k, ∀ s ∈ dataSymbols ++ routineSymbols, s ≠ StringTable.label k := by
    intro k s hs h
    have hstart : ∀ s ∈ dataSymbols ++ routineSymbols, s.toList.take 4 ≠ ['s', 't', 'r', '_'] := by decide
    refine hstart s hs ?_
    rw [h, StringTable.toList_label]
    rfl
  have hfunction : ∀ name, ∀ s ∈ dataSymbols ++ routineSymbols, s ≠ functionLabel name := by
    intro name s hs h
    have hstart : ∀ s ∈ dataSymbols ++ routineSymbols, s.toList.take 3 ≠ ['f', 'n', '_'] := by decide
    refine hstart s hs ?_
    rw [h, functionLabel, String.toList_append]
    rfl
  have hruntime : (dataSymbols ++ routineSymbols).Nodup := by decide
  obtain ⟨hdata, hroutine, hapart⟩ := List.nodup_append.mp hruntime
  have hnames : ((p.functions.filter (!·.external)).map (·.name)).Nodup :=
    hp.sublist (List.filter_sublist.map _)
  have hlabels : ((List.range p.strings.size).map StringTable.label).Nodup :=
    List.pairwise_map.mpr (List.nodup_range.imp fun hne h => hne (StringTable.label_injective h))
  have hfunctions : ((p.functions.filter (!·.external)).map fun f => functionLabel f.name).Nodup :=
    List.pairwise_map.mpr ((List.pairwise_map.mp hnames).imp fun hne h => hne (functionLabel_injective h))
  rw [definitions_ofProgram]
  refine List.nodup_append.mpr ⟨List.nodup_append.mpr ⟨List.nodup_append.mpr ⟨hdata, hlabels, ?_⟩, hroutine, ?_⟩,
    hfunctions, ?_⟩
  · intro s hs t ht
    obtain ⟨k, -, rfl⟩ := List.mem_map.mp ht
    exact hlabel k s (List.mem_append_left _ hs)
  · intro s hs t ht
    rcases List.mem_append.mp hs with hs | hs
    · exact hapart s hs t ht
    · obtain ⟨k, -, rfl⟩ := List.mem_map.mp hs
      exact (hlabel k t (List.mem_append_right _ ht)).symm
  · intro s hs t ht
    obtain ⟨f, -, rfl⟩ := List.mem_map.mp ht
    rcases List.mem_append.mp hs with hs | hs
    · rcases List.mem_append.mp hs with hs | hs
      · exact hfunction f.name s (List.mem_append_left _ hs)
      · obtain ⟨k, -, rfl⟩ := List.mem_map.mp hs
        exact label_ne_functionLabel k f.name
    · exact hfunction f.name s (List.mem_append_right _ hs)

/-! ## References -/

/-- The labels of a function, each of them once. -/
theorem filterMap_functionLines_of_index (p : Program) (label : String) {f : Function}
    (hf : ∀ (j : Nat) (i : Instr), f.code[j]? = some i → i.index = j) :
    (functionLines p label f).filterMap Line.definition? = label :: (List.range (f.length + 1)).map indexLabel := by
  have hindex : f.code.toList.map (fun i => indexLabel i.index) = (List.range f.length).map indexLabel := by
    refine List.ext_getElem (by simp [Function.length]) fun j hj _ => ?_
    rw [List.length_map, Array.length_toList] at hj
    simp [hf j _ (Array.getElem?_eq_getElem hj)]
  rw [filterMap_functionLines, hindex, List.range_succ, List.map_append]
  rfl

/-- The label of an instruction, and the one at the end, stand on one line each. -/
theorem unique_indexLabel (p : Program) {label : String} (hl : isLocal label = false) {f : Function}
    (hf : ∀ (j : Nat) (i : Instr), f.code[j]? = some i → i.index = j) {t a b : Nat}
    (ha : (functionLines p label f)[a]? = some (.label (indexLabel t)))
    (hb : (functionLines p label f)[b]? = some (.label (indexLabel t))) : a = b := by
  have hnodup : ((functionLines p label f).filterMap Line.definition?).Nodup := by
    rw [filterMap_functionLines_of_index p label hf, List.nodup_cons]
    refine ⟨fun hmem => ?_, List.Pairwise.map _ (fun _ _ => mt indexLabel_injective) List.nodup_range⟩
    obtain ⟨t, -, rfl⟩ := List.mem_map.mp hmem
    rw [isLocal_indexLabel] at hl
    cases hl
  have hpair := List.pairwise_iff_getElem.mp (List.pairwise_filterMap.mp hnodup)
  obtain ⟨hlta, ha⟩ := List.getElem?_eq_some_iff.mp ha
  obtain ⟨hltb, hb⟩ := List.getElem?_eq_some_iff.mp hb
  have ha := congrArg Line.definition? ha
  have hb := congrArg Line.definition? hb
  rcases Nat.lt_trichotomy a b with hlt | heq | hgt
  · exact absurd rfl (hpair a b hlta hltb hlt _ ha _ hb)
  · exact heq
  · exact absurd rfl (hpair b a hltb hlta hgt _ hb _ ha)

theorem mem_external_ofProgram {p : Program} {f : Function} (hf : f ∈ p.functions) (he : f.external = true) :
    f.name ∈ (ofProgram p).filterMap Line.external? := by
  refine List.mem_filterMap.mpr ⟨.external f.name, ?_, rfl⟩
  have hheader : Line.external f.name ∈ header p := by
    refine List.mem_append_left _ (List.mem_append_right _ (List.mem_map.mpr ⟨f, ?_, rfl⟩))
    exact List.mem_filter.mpr ⟨hf, he⟩
  rw [ofProgram_eq]
  simp [hheader]

/-- A symbol that a block refers to can be found: in the block, in the file or elsewhere. What only reads as the
label of a string cannot. -/
def Found (p : Program) (block : List Line) (s : String) : Prop :=
  s ∈ block.filterMap Line.definition? ∨ s ∈ definitions (ofProgram p) ∨ s ∈ (ofProgram p).filterMap Line.external? ∨
    ∃ k, p.strings.lookup? s = some k ∧ s ≠ StringTable.label k

theorem mem_definitions_of_runtime (p : Program) (hs : s ∈ dataSymbols ++ routineSymbols) :
    s ∈ definitions (ofProgram p) := by
  rw [definitions_ofProgram]
  simp only [List.mem_append] at hs ⊢
  exact hs.elim (fun h => .inl (.inl (.inl h))) fun h => .inl (.inr h)

theorem mem_definitions_of_function {p : Program} {f : Function} (hf : f ∈ p.functions) (hd : f.external = false) :
    functionLabel f.name ∈ definitions (ofProgram p) := by
  rw [definitions_ofProgram]
  exact List.mem_append_right _ (List.mem_map.mpr ⟨f, List.mem_filter.mpr ⟨hf, by rw [hd]; rfl⟩, rfl⟩)

theorem mem_definitions_of_text {p : Program} (hk : k < p.strings.size) :
    StringTable.label k ∈ definitions (ofProgram p) := by
  rw [definitions_ofProgram]
  exact List.mem_append_left _ (List.mem_append_left _ (List.mem_append_right _
    (List.mem_map.mpr ⟨k, List.mem_range.mpr hk, rfl⟩)))

theorem Reachable.found {p : Program} (label : String) {f : Function}
    (hf : ∀ (j : Nat) (i : Instr), f.code[j]? = some i → i.index = j) (h : Reachable p f s) :
    Found p (functionLines p label f) s := by
  cases h with
  | @index t ht =>
    rw [Found, filterMap_functionLines_of_index p label hf]
    exact .inl (List.mem_cons_of_mem _ (List.mem_map.mpr ⟨t, List.mem_range.mpr (by omega), rfl⟩))
  | data hs =>
    have hsub : ∀ s ∈ ["exec_stack", "globals", putcharLabel, probeLabel], s ∈ dataSymbols ++ routineSymbols := by decide
    exact .inr (.inl (mem_definitions_of_runtime p (hsub s hs)))
  | function hg hd => exact .inr (.inl (mem_definitions_of_function hg hd))
  | external hg he => exact .inr (.inr (.inl (mem_external_ofProgram hg he)))
  | @text _ k hk =>
    by_cases hl : s = StringTable.label k
    · refine .inr (.inl ?_)
      have hlt : k < p.strings.size := by
        rw [hl, StringTable.lookup?_label] at hk
        split at hk
        · assumption
        · cases hk
      exact hl ▸ mem_definitions_of_text hlt
    · exact .inr (.inr (.inr ⟨k, hk, hl⟩))

theorem found_functionLines {p : Program} (label : String) {f : Function}
    (hf : ∀ (j : Nat) (i : Instr), f.code[j]? = some i → i.index = j)
    (hline : line ∈ functionLines p label f) (hs : s ∈ line.symbols) : Found p (functionLines p label f) s := by
  have hmem := hline
  simp only [functionLines, List.mem_append, List.mem_cons, List.mem_flatMap, List.not_mem_nil, or_false] at hmem
  rcases hmem with ((rfl | rfl) | ⟨i, -, rfl | hinstr⟩) | rfl | rfl | rfl
  · cases hs
  · cases hs
  · cases hs
  · obtain ⟨o, rfl, ho⟩ := refers_instrLines p f i line hinstr
    exact (ho s hs).found label hf
  · cases hs
  · cases hs
  · cases hs

/-- The routines of every program refer to each other, to data, to their own labels, and to what the system
provides. -/
theorem found_routine (p : Program) {block : List Line} (hb : block ∈ [entryPoint p, putcharRoutine, probeRoutine])
    (hline : line ∈ block) (hs : s ∈ line.symbols) : Found p block s := by
  have hsystem : ∀ s ∈ ["GetStdHandle", "WriteConsoleA", "ExitProcess"], s ∈ (ofProgram p).filterMap Line.external? := by
    intro s hs
    refine List.mem_filterMap.mpr ⟨.external s, ?_, rfl⟩
    have hheader : Line.external s ∈ header p := by
      simp only [List.mem_cons, List.not_mem_nil, or_false] at hs
      rcases hs with rfl | rfl | rfl <;> simp [header]
    rw [ofProgram_eq]
    simp [hheader]
  have hsymbols : s ∈ block.flatMap Line.symbols := List.mem_flatMap.mpr ⟨line, hline, hs⟩
  simp only [List.mem_cons, List.not_mem_nil, or_false] at hb
  rcases hb with rfl | rfl | rfl
  · by_cases hmain : (p.function? "main").any (!·.external) = true
    · have heq : (entryPoint p).flatMap Line.symbols = [initLabel, functionLabel "main", ".exit", "ExitProcess"] := by
        simp only [entryPoint, hmain]
        rfl
      have hexit : ".exit" ∈ (entryPoint p).filterMap Line.definition? := by
        simp only [entryPoint, hmain]
        decide
      rw [heq] at hsymbols
      simp only [List.mem_cons, List.not_mem_nil, or_false] at hsymbols
      rcases hsymbols with rfl | rfl | rfl | rfl
      · exact .inr (.inl (mem_definitions_of_runtime p (by decide)))
      · obtain ⟨f, hf, hd⟩ := (Option.any_eq_true _ _).mp hmain
        have hname : f.name = "main" := by
          have := List.find?_some hf
          exact eq_of_beq this
        exact .inr (.inl (hname ▸ mem_definitions_of_function (List.mem_of_find?_eq_some hf) (by simpa using hd)))
      · exact .inl hexit
      · exact .inr (.inr (.inl (hsystem _ (by decide))))
    · have heq : (entryPoint p).flatMap Line.symbols = [initLabel, "ExitProcess"] := by
        simp only [entryPoint, hmain]
        rfl
      rw [heq] at hsymbols
      simp only [List.mem_cons, List.not_mem_nil, or_false] at hsymbols
      rcases hsymbols with rfl | rfl
      · exact .inr (.inl (mem_definitions_of_runtime p (by decide)))
      · exact .inr (.inr (.inl (hsystem _ (by decide))))
  · have hall : ∀ s ∈ putcharRoutine.flatMap Line.symbols,
        s ∈ dataSymbols ++ routineSymbols ∨ s ∈ ["GetStdHandle", "WriteConsoleA", "ExitProcess"] := by decide
    rcases hall s hsymbols with h | h
    · exact .inr (.inl (mem_definitions_of_runtime p h))
    · exact .inr (.inr (.inl (hsystem s h)))
  · have hall : ∀ s ∈ probeRoutine.flatMap Line.symbols, s ∈ probeRoutine.filterMap Line.definition? := by decide
    exact .inl (hall s hsymbols)

/-- What any block refers to can be found. -/
theorem found_blocks {p : Program}
    (hp : ∀ f ∈ p.init :: p.functions, ∀ (j : Nat) (i : Instr), f.code[j]? = some i → i.index = j) {block : List Line}
    (hb : block ∈ blocks p) (hline : line ∈ block) (hs : s ∈ line.symbols) : Found p block s := by
  rcases List.mem_append.mp hb with hb | hb
  · simp only [List.mem_cons, List.not_mem_nil, or_false] at hb
    rcases hb with rfl | rfl | rfl | rfl
    · exact found_routine p (by simp) hline hs
    · exact found_routine p (by simp) hline hs
    · exact found_routine p (by simp) hline hs
    · exact found_functionLines _ (hp _ List.mem_cons_self) hline hs
  · obtain ⟨f, hf, rfl⟩ := List.mem_map.mp hb
    exact found_functionLines _ (hp f (List.mem_cons_of_mem _ (List.mem_filter.mp hf).1)) hline hs

/-- What stands before the routines holds no operations, and so it refers to nothing. -/
theorem symbols_front (p : Program) : ∀ line ∈ header p ++ data p ++ [.directive "section .text"], line.symbols = [] := by
  intro line hline
  cases line with
  | op o =>
    unfold header data at hline
    split at hline <;> simp at hline
  | _ => rfl

/-- What the assembly of a program should be for its symbols to mean what they stand for. -/
structure Linked (p : Program) : Prop where
  /-- A text has a symbol, and its bytes stand there. -/
  text : ∀ k s, p.strings.texts[k]? = some s → StringTable.label k ∈ definitions (ofProgram p) ∧
    .item (StringTable.label k) ("db " ++ String.intercalate ", " ((StringTable.bytes s).map toString)) ∈ ofProgram p
  function : ∀ f ∈ p.functions, f.external = false → functionLabel f.name ∈ definitions (ofProgram p)
  external : ∀ f ∈ p.functions, f.external = true → f.name ∈ (ofProgram p).filterMap Line.external?
  runtime : ∀ s ∈ dataSymbols ++ routineSymbols, s ∈ definitions (ofProgram p)
  /-- No symbol is defined twice. -/
  nodup : (definitions (ofProgram p)).Nodup
  /-- A function that is defined elsewhere has a symbol of its own, unless its name is taken. -/
  apart : (definitions (ofProgram p) ++ (p.functions.filter (·.external)).map (·.name)).Nodup ↔
    ∀ f ∈ p.functions, f.external = true → f.name ∉ definitions (ofProgram p)
  /-- What is referred to can be found. -/
  found : ∃ front, ofProgram p = front ++ (blocks p).flatten ∧ (∀ line ∈ front, line.symbols = []) ∧
    ∀ block ∈ blocks p, ∀ line ∈ block, ∀ s ∈ line.symbols, Found p block s

theorem item_mem_ofProgram {p : Program} (hs : p.strings.texts[k]? = some s) :
    .item (StringTable.label k) ("db " ++ String.intercalate ", " ((StringTable.bytes s).map toString)) ∈ ofProgram p := by
  have hentry : (StringTable.label k, StringTable.bytes s) ∈ p.strings.entries :=
    List.mem_map.mpr ⟨(s, k), List.mem_zipIdx_iff_getElem?.mpr hs, rfl⟩
  have hdata : .item (StringTable.label k) ("db " ++ String.intercalate ", " ((StringTable.bytes s).map toString)) ∈ data p :=
    List.mem_append_left _ (List.mem_append_right _ (List.mem_map.mpr ⟨_, hentry, rfl⟩))
  rw [ofProgram_eq]
  simp [hdata]

theorem linked {p : Program} (hunique : (p.functions.map (·.name)).Nodup)
    (hindex : ∀ f ∈ p.init :: p.functions, ∀ (j : Nat) (i : Instr), f.code[j]? = some i → i.index = j) : Linked p where
  text k s hs := ⟨mem_definitions_of_text (List.getElem?_eq_some_iff.mp hs).1, item_mem_ofProgram hs⟩
  function _ := mem_definitions_of_function
  external _ := mem_external_ofProgram
  runtime _ := mem_definitions_of_runtime p
  nodup := nodup_definitions hunique
  apart := by
    have hnames : ((p.functions.filter (·.external)).map (·.name)).Nodup := hunique.sublist (List.filter_sublist.map _)
    rw [List.nodup_append]
    constructor
    · intro h f hf he hmem
      exact h.2.2 _ hmem f.name (List.mem_map.mpr ⟨f, List.mem_filter.mpr ⟨hf, he⟩, rfl⟩) rfl
    · refine fun h => ⟨nodup_definitions hunique, hnames, fun s hs t ht heq => ?_⟩
      obtain ⟨f, hf, rfl⟩ := List.mem_map.mp ht
      obtain ⟨hf, he⟩ := List.mem_filter.mp hf
      exact h f hf he (heq ▸ hs)
  found := ⟨_, ofProgram_eq p, symbols_front p, fun _ hb _ hline _ hs => found_blocks hindex hb hline hs⟩

end Assembly

end Wordstack
