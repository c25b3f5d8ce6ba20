/-
Where the globals lie and what they hold. They are laid out one after the other, each one
in slots of its own; a literal stands in its slot from the start, and the code that gives
the others their values does what the text says, in the order of the text.
-/
import Wordstack.Proofs.Calls
import Wordstack.Proofs.Origins

namespace Wordstack

open Lower Machine

variable {e : Entry} {o root : Nat} {x : String}

/-! ## The layout -/

/-- The bytes that a variable takes up. -/
def Entry.bytes (e : Entry) : Nat := (e.type?.map Ty.size).getD Ty.slotSize

theorem Entry.bytes_mod (e : Entry) : e.bytes % Ty.slotSize = 0 := by
  unfold Entry.bytes
  cases e.type? with
  | none => rfl
  | some t => simp [Ty.size]

/-- Variables take up whole slots, and no two of them share one. -/
structure Layout.OK (scope : Scope) (l : Layout) : Prop where
  whole : l.size % Ty.slotSize = 0
  within : ∀ x e o, scope.get? x = some e → l.offsets.get? x = some o → o % Ty.slotSize = 0 ∧ o + e.bytes ≤ l.size
  apart : ∀ x y e f o p, x ≠ y → scope.get? x = some e → scope.get? y = some f → l.offsets.get? x = some o →
    l.offsets.get? y = some p → o + e.bytes ≤ p ∨ p + f.bytes ≤ o

namespace Layout

variable {scope : Scope} {l : Layout}

theorem OK.place (h : l.OK scope) (root : Nat) (name : Token) : (l.place scope root name).OK scope := by
  unfold Layout.place
  split
  · exact h
  next e he =>
    split
    · have hsize : ∀ x f o, scope.get? x = some f → l.offsets.get? x = some o → o + f.bytes ≤ l.size :=
        fun x f o hf ho => (h.within x f o hf ho).2
      have hmod := h.whole
      have hbytes := e.bytes_mod
      refine ⟨?_, fun x f o hf ho => ?_, fun x y f g o p hne hf hg ho hp => ?_⟩
      · show (l.size + e.bytes) % Ty.slotSize = 0
        rw [Nat.add_mod, hmod, hbytes]
        rfl
      · rw [NameTable.get?_set] at ho
        split at ho
        next heq =>
          subst heq
          cases Option.some.inj (he.symm.trans hf)
          cases ho
          exact ⟨hmod, Nat.le_refl _⟩
        · exact ⟨(h.within x f o hf ho).1, Nat.le_add_right_of_le (hsize x f o hf ho)⟩
      · rw [NameTable.get?_set] at ho hp
        split at ho
        next hx =>
          cases ho
          rw [if_neg fun hy => hne (hx.symm.trans hy)] at hp
          exact .inr (hsize y g p hg hp)
        · split at hp
          · cases hp
            exact .inl (hsize x f o hf ho)
          · exact h.apart x y f g o p hne hf hg ho hp
    · exact h

theorem OK.placeAll (root : Nat) (names : List Token) (h : l.OK scope) :
    (names.foldl (Layout.place scope root) l).OK scope := by
  induction names generalizing l with
  | nil => exact h
  | cons name names ih => exact ih (h.place root name)

theorem OK.placeItems (items : List Stmt) (root : Nat) (h : l.OK scope) : (l.placeItems scope root items).OK scope := by
  induction items generalizing l root with
  | nil => exact h
  | cons item items ih => exact ih _ (h.placeAll root item.variables)

theorem ok_ofItems (scope : Scope) (items : List Stmt) : (Layout.ofItems scope items).OK scope :=
  OK.placeItems items 0 ⟨rfl, fun _ _ _ _ h => (by cases h), fun _ _ _ _ _ _ _ _ _ h => by cases h⟩

/-- A variable that has been given room keeps some. -/
theorem isSome_place (root : Nat) (name : Token) (h : (l.offsets.get? x).isSome = true) :
    ((l.place scope root name).offsets.get? x).isSome = true := by
  unfold Layout.place
  split
  · exact h
  · split
    · rw [NameTable.get?_set]
      split
      · rfl
      · exact h
    · exact h

theorem isSome_placeAll (root : Nat) (names : List Token) (h : (l.offsets.get? x).isSome = true) :
    ((names.foldl (Layout.place scope root) l).offsets.get? x).isSome = true := by
  induction names generalizing l with
  | nil => exact h
  | cons name names ih => exact ih (isSome_place root name h)

theorem isSome_placeItems (items : List Stmt) (root : Nat) (h : (l.offsets.get? x).isSome = true) :
    ((l.placeItems scope root items).offsets.get? x).isSome = true := by
  induction items generalizing l root with
  | nil => exact h
  | cons item items ih => exact ih _ (isSome_placeAll root item.variables h)

/-- The item that the entry of a variable comes from gives it room. -/
theorem placed {items : List Stmt} {i : Nat} {item : Stmt} {t : Token} (hitem : items[i]? = some item)
    (ht : t ∈ item.variables) (he : scope.get? t.text = some e) (hk : e.kind = .var) (hroot : e.root = root + i) :
    ((l.placeItems scope root items).offsets.get? t.text).isSome = true := by
  induction items generalizing l root i with
  | nil => cases hitem
  | cons first items ih =>
    cases i with
    | zero =>
      cases hitem
      refine isSome_placeItems items _ ?_
      obtain ⟨front, back, hvars⟩ := List.append_of_mem ht
      rw [hvars, List.foldl_append, List.foldl_cons]
      refine isSome_placeAll root back ?_
      simp only [Layout.place, he]
      rw [if_pos ⟨hk, hroot⟩]
      simp
    | succ i => exact ih hitem (by omega)

end Layout

section

variable {items : List Stmt} {scope : Scope}

theorem Layout.get?_symbols_kept {l : Layout} {s : SymbolInfo}
    (hs : (l.symbols scope).get? x = some s) (hk : s.KeptAt (.static o)) :
    ∃ e, scope.get? x = some e ∧ e.kind = .var ∧ l.offsets.get? x = some o ∧ e.bytes = Ty.slotSize := by
  rw [l.get?_symbols] at hs
  obtain ⟨e, he, rfl⟩ := Option.map_eq_some_iff.mp hs
  have hkind : e.kind = .var := hk.kind
  have hstorage := hk.storage
  simp only [Entry.info, if_pos hkind, Option.map_eq_some_iff] at hstorage
  obtain ⟨o', ho, heq⟩ := hstorage
  cases heq
  refine ⟨e, he, hkind, ho, ?_⟩
  have hscalar := hk.scalar
  unfold Entry.bytes
  cases ht : e.type? with
  | none => rfl
  | some t =>
    simp only [SymbolInfo.isArray, Entry.info, ht, Option.any_some] at hscalar
    exact Ty.size_of_scalar hscalar

theorem staticsOK_symbols (items : List Stmt) (scope : Scope) :
    StaticsOK ((Layout.ofItems scope items).symbols scope) (Layout.ofItems scope items).size := by
  have hok := Layout.ok_ofItems scope items
  refine ⟨fun x s o hs hk => ?_, fun x y s t o p hne hs ht hks hkt => ?_⟩
  · obtain ⟨e, he, -, ho, hbytes⟩ := Layout.get?_symbols_kept hs hk
    have := (hok.within x e o he ho).2
    rwa [hbytes] at this
  · obtain ⟨e, he, -, ho, hbytes⟩ := Layout.get?_symbols_kept hs hks
    obtain ⟨f, hf, -, hp, hbytes'⟩ := Layout.get?_symbols_kept ht hkt
    have := hok.apart x y e f o p hne he hf ho hp
    rwa [hbytes, hbytes'] at this

/-- Each variable comes from an item that declares it. -/
def Scope.Owned (items : List Stmt) (scope : Scope) : Prop :=
  ∀ x e, scope.get? x = some e → e.kind = .var → items[e.root]? = some e.item ∧ x ∈ e.item.variables.map (·.text)

theorem Scope.Owned.placed (h : scope.Owned items) (he : scope.get? x = some e) (hk : e.kind = .var) :
    ∃ o, (Layout.ofItems scope items).offsets.get? x = some o := by
  obtain ⟨hitem, hx⟩ := h x e he hk
  obtain ⟨t, ht, rfl⟩ := List.mem_map.mp hx
  exact Option.isSome_iff_exists.mp (Layout.placed (l := {}) hitem ht he hk (Nat.zero_add _).symm)

theorem Layout.get?_symbols_var (l : Layout) (he : scope.get? x = some e) (hk : e.kind = .var) :
    (l.symbols scope).get? x = some (e.info ((l.offsets.get? x).map .static)) := by
  rw [Layout.get?_symbols, he, Option.map_some, if_pos hk]

theorem Scope.Traced.owned (h : scope.Traced items) : scope.Owned items := by
  intro x e he hk
  have hname := (h.entry x e he).name
  refine ⟨(h.entry x e he).item, ?_⟩
  cases hi : e.item <;> rw [hi] at hname
  case declare | declareAs | define => exact List.mem_singleton.mpr (Option.some.inj hname).symm
  all_goals cases hname

/-- A variable of the text is kept among the globals. -/
theorem Scope.Traced.placed (h : scope.Traced items) (he : scope.get? x = some e)
    (hk : e.kind = .var) : ∃ o s, (Layout.ofItems scope items).offsets.get? x = some o ∧
      ((Layout.ofItems scope items).symbols scope).get? x = some s ∧ s.KeptAt (.static o) := by
  obtain ⟨o, ho⟩ := h.owned.placed he hk
  obtain ⟨ty, hty, hscalar⟩ := (h.entry x e he).type hk
  refine ⟨o, _, ho, Layout.get?_symbols_var _ he hk, hk, ?_, by rw [ho]; rfl⟩
  simp [SymbolInfo.isArray, Entry.info, hty, hscalar]

/-! ## Literals -/

theorem Expr.constant?_eq (e : Expr) : e.constant? = e.atom?.bind Token.value? := by
  unfold Expr.constant?
  cases e.atom? with
  | none => rfl
  | some t =>
    obtain ⟨kind, text, span, literal⟩ := t
    cases literal with
    | unsigned v =>
      cases kind with
      | keyword k => cases k <;> rfl
      | _ => rfl
    | _ =>
      cases kind with
      | keyword k => cases k <;> rfl
      | _ => rfl

/-- What stands in the slot of a variable from the start. -/
def Entry.literal (x : String) (e : Entry) : UInt64 := ((e.item.initial? x).bind Expr.constant?).getD 0

theorem Entry.ComesFrom.literal_eq (h : e.ComesFrom items x) (hk : e.kind = .var) : literalOf items x = e.literal x := by
  rw [literalOf, (h.initial hk).1, Entry.literal]
  congr 2
  funext v
  exact v.constant?_eq.symm

/-- A variable of one word, and where it is kept. -/
structure Scope.Word (items : List Stmt) (scope : Scope) (x : String) (e : Entry) (o : Nat) : Prop where
  entry : scope.get? x = some e
  kind : e.kind = .var
  scalar : e.type?.any Ty.isArray = false
  offset : (Layout.ofItems scope items).offsets.get? x = some o

theorem Scope.Traced.word (h : scope.Traced items) (he : scope.get? x = some e) (hk : e.kind = .var)
    (ho : (Layout.ofItems scope items).offsets.get? x = some o) : scope.Word items x e o := by
  obtain ⟨t, ht, hscalar⟩ := (h.entry x e he).type hk
  exact ⟨he, hk, by simp [ht, hscalar], ho⟩

/-- The variable has a slot, and no other variable of one word has the same one. -/
theorem Scope.Word.slot (h : scope.Word items x e o) :
    o / Ty.slotSize < (Layout.ofItems scope items).slots ∧ o / Ty.slotSize * Ty.slotSize = o ∧
      ∀ y f p, x ≠ y → scope.Word items y f p → o / Ty.slotSize ≠ p / Ty.slotSize := by
  have hbytes {y f p} (h : scope.Word items y f p) : f.bytes = Ty.slotSize := by
    have hscalar := h.scalar
    unfold Entry.bytes
    cases ht : f.type? with
    | none => rfl
    | some t => exact Ty.size_of_scalar (by simpa [ht] using hscalar)
  have hok := Layout.ok_ofItems scope items
  obtain ⟨hmod, hle⟩ := hok.within x e o h.entry h.offset
  have hwhole := hok.whole
  rw [hbytes h] at hle
  unfold Layout.slots
  simp only [Ty.slotSize] at hmod hle hwhole ⊢
  refine ⟨by omega, by omega, fun y f p hne h' => ?_⟩
  have hapart := hok.apart x y e f o p hne h.entry h'.entry h.offset h'.offset
  have hmod' := (hok.within y f p h'.entry h'.offset).1
  rw [hbytes h, hbytes h'] at hapart
  simp only [Ty.slotSize] at hapart hmod'
  omega

/-- The slots of the variables that come from the first `root` items have been filled. -/
structure SlotsFilled (items : List Stmt) (scope : Scope) (root : Nat) (slots : List UInt64) : Prop where
  length : slots.length = (Layout.ofItems scope items).slots
  value : ∀ x e o, scope.Word items x e o → slots[o / Ty.slotSize]? = some (if e.root < root then e.literal x else 0)
  zero : ∀ i, i < slots.length → (∀ x e o, scope.Word items x e o → o / Ty.slotSize ≠ i) → slots[i]? = some 0

namespace SlotsFilled

variable {slots : List UInt64} {item : Stmt}

theorem start (items : List Stmt) (scope : Scope) :
    SlotsFilled items scope 0 (List.replicate (Layout.ofItems scope items).slots 0) := by
  refine ⟨List.length_replicate, fun x e o hx => ?_, fun i hi _ => ?_⟩
  · rw [if_neg (Nat.not_lt_zero _), List.getElem?_replicate, if_pos hx.slot.1]
  · rw [List.length_replicate] at hi
    rw [List.getElem?_replicate, if_pos hi]

/-- An item that fills no slot has no literal. -/
theorem kept (hs : SlotsFilled items scope root slots)
    (hnone : ∀ x e o, scope.Word items x e o → e.root = root → e.literal x = 0) :
    SlotsFilled items scope (root + 1) slots := by
  refine ⟨hs.length, fun x e o hx => ?_, hs.zero⟩
  rw [hs.value x e o hx]
  by_cases hroot : e.root = root
  · rw [if_neg (by omega), if_pos (by omega), hnone x e o hx hroot]
  · simp only [show (e.root < root + 1) = (e.root < root) by simp only [eq_iff_iff]; omega]

/-- A variable that comes from the item at position `root` is one that the item declares. -/
theorem item_eq (h : scope.Owned items) (hitem : items[root]? = some item) (hx : scope.Word items x e o)
    (hroot : e.root = root) : e.item = item ∧ x ∈ item.variables.map (·.text) := by
  obtain ⟨heq, hmem⟩ := h x e hx.entry hx.kind
  rw [hroot, hitem] at heq
  cases heq
  exact ⟨rfl, hmem⟩

theorem set (hs : SlotsFilled items scope root slots) (h : scope.Owned items) (hitem : items[root]? = some item)
    {name : Token} {v : UInt64} (hname : item.variables = [name]) (hx : scope.Word items name.text e o) (hroot : e.root = root)
    (hv : e.literal name.text = v) : SlotsFilled items scope (root + 1) (slots.set (o / Ty.slotSize) v) := by
  obtain ⟨hlt, -, hapart⟩ := hx.slot
  refine ⟨by rw [List.length_set, hs.length], fun x f p hp => ?_, fun i hi hno => ?_⟩
  · by_cases hne : name.text = x
    · subst hne
      cases hx.entry.symm.trans hp.entry
      cases hx.offset.symm.trans hp.offset
      rw [List.getElem?_set_self (hs.length ▸ hlt), if_pos (by omega), hv]
    · have hother : f.root ≠ root := fun heq => hne (by
        have := (item_eq h hitem hp heq).2
        rw [hname] at this
        exact (List.mem_singleton.mp this).symm)
      rw [List.getElem?_set_ne (hapart x f p hne hp), hs.value x f p hp]
      simp only [show (f.root < root + 1) = (f.root < root) by simp only [eq_iff_iff]; omega]
  · rw [List.length_set] at hi
    rw [List.getElem?_set_ne (hno _ _ _ hx), hs.zero i hi hno]

end SlotsFilled

theorem Layout.offsetFor?_eq {name : Token} {l : Layout} (he : scope.get? name.text = some e)
    (hk : e.kind = .var) (hr : e.root = root) : l.offsetFor? scope root name = l.offsets.get? name.text := by
  unfold Layout.offsetFor?
  rw [he]
  exact if_pos ⟨hk, hr⟩

/-- A literal goes into the slot of its variable. -/
theorem ensures_filled_initItem (h : scope.Owned items) {item : Stmt} (hitem : items[root]? = some item)
    (slots : List UInt64) : Ensures Watch.ignore (initItem (.ofItems items scope) root item slots) fun r =>
      SlotsFilled items scope root slots → SlotsFilled items scope (root + 1) r.1 := by
  have hnone (hinitial : ∀ x, item.initial? x = none) (hs : SlotsFilled items scope root slots) :
      SlotsFilled items scope (root + 1) slots := hs.kept fun x e o hx hroot => by
    rw [Entry.literal, (SlotsFilled.item_eq h hitem hx hroot).1, hinitial]
    rfl
  unfold initItem
  cases item with
  | declareAs name ty value =>
    have hvalue {x : String} {e : Entry} {o : Nat} (hx : scope.Word items x e o) (hroot : e.root = root) :
        x = name.text ∧ e.literal x = value.constant?.getD 0 := by
      obtain ⟨heq, hmem⟩ := SlotsFilled.item_eq h hitem hx hroot
      obtain rfl : x = name.text := List.mem_singleton.mp hmem
      rw [Entry.literal, heq]
      simp [Stmt.initial?]
    dsimp only
    split
    next hnone =>
      refine .pure fun hs => hs.kept fun x e o hx hroot => ?_
      obtain ⟨rfl, -⟩ := hvalue hx hroot
      cases (hnone.symm.trans (Layout.offsetFor?_eq hx.entry hx.kind hroot)).trans hx.offset
    next offset ho =>
      obtain ⟨e, he, hk, hroot, ho⟩ := Layout.of_offsetFor? ho
      rw [show (GlobalContext.ofItems items scope).scope.get? name.text = some e from he]
      split
      next harray =>
        refine Ensures.bind .trivial fun _ => .pure fun _ hs => hs.kept fun x f o hx hroot' => ?_
        obtain ⟨rfl, -⟩ := hvalue hx hroot'
        cases he.symm.trans hx.entry
        exact absurd (hx.scalar.symm.trans harray) Bool.false_ne_true
      next harray =>
        have hx : scope.Word items name.text e offset := ⟨he, hk, Bool.not_eq_true _ ▸ harray, ho⟩
        split
        next v hv => exact .pure fun hs => hs.set h hitem rfl hx hroot (by rw [(hvalue hx hroot).2, hv]; rfl)
        next hv =>
          refine Ensures.bind .trivial fun _ => Ensures.bind .trivial fun _ => .pure fun _ _ hs =>
            hs.kept fun x f o hx hroot' => ?_
          rw [(hvalue hx hroot').2, hv]
          rfl
  | declareManyAs _ _ _ _ =>
    exact Ensures.bind .trivial fun _ => Ensures.bind .trivial fun _ => .pure fun _ _ => hnone fun _ => rfl
  | swap _ _ _ => exact Ensures.bind .trivial fun _ => .pure fun _ => hnone fun _ => rfl
  | _ => exact .pure (hnone fun _ => rfl)

theorem ensures_filled_initItems (h : scope.Owned items) {rest : List Stmt}
    (hrest : ∀ i item, rest[i]? = some item → items[root + i]? = some item) (slots : List UInt64) :
    Ensures Watch.ignore (initItems (.ofItems items scope) root slots rest) fun r =>
      SlotsFilled items scope root slots → SlotsFilled items scope (root + rest.length) r.1 := by
  induction rest generalizing root slots with
  | nil => exact .pure id
  | cons item rest ih =>
    have hitem := ensures_filled_initItem h (hrest 0 item rfl) slots
    have hnext : ∀ i item', rest[i]? = some item' → items[root + 1 + i]? = some item' := by
      intro i item' hi
      rw [Nat.add_assoc, Nat.add_comm 1]
      exact hrest (i + 1) item' hi
    refine Ensures.bind hitem fun r => Ensures.bind (ih hnext r.1) fun r' => .pure fun hrest hfirst hs => ?_
    · rw [List.length_cons, Nat.add_comm rest.length, ← Nat.add_assoc]
      exact hrest (hfirst hs)

/-! ## Values that take code -/

theorem frameOK_ofItems (items : List Stmt) (scope : Scope) : (GlobalContext.ofItems items scope).env.FrameOK :=
  ⟨fun _ _ _ h => (by cases h), fun _ _ _ _ _ _ h => (by cases h), fun _ _ _ h => storage_symbols scope _ h,
    Nat.le_refl _, fun _ h => (by cases h)⟩

/-- An item gives its variable a value if no item before it has done so. -/
theorem Scope.Traced.offsetFor?_eq_none (h : scope.Traced items) {name : Token} {ty : TypeExpr} {value : Expr}
    (hitem : items[root]? = some (.declareAs name ty value)) :
    (Layout.ofItems scope items).offsetFor? scope root name = none ↔
      ∃ j < root, ((items[j]?).bind (Stmt.initial? name.text)).isSome = true := by
  have hinitial : (items[root]?).bind (Stmt.initial? name.text) = some value := by
    rw [hitem]
    simp [Stmt.initial?]
  have hvariable : (Stmt.declareAs name ty value).IsVariable name.text := .inr (by simp [Stmt.initial?])
  obtain ⟨e, he, hk⟩ := h.var (List.mem_of_getElem? hitem) hvariable
  have hfrom := h.entry _ e he
  constructor
  · intro hnone
    have hroot : e.root ≠ root := by
      intro hroot
      obtain ⟨o, s, ho, -⟩ := h.placed he hk
      cases (hnone.symm.trans (Layout.offsetFor?_eq he hk hroot)).trans ho
    have hle : e.root ≤ root := by
      refine Nat.le_of_not_lt fun hlt => ?_
      cases hinitial.symm.trans ((hfrom.initial hk).2 root hlt)
    refine ⟨e.root, by omega, ?_⟩
    cases hval : e.item.hasValue with
    | true =>
      obtain ⟨v, hfirst⟩ := hfrom.value hk hval
      rw [hfirst.1]
      rfl
    | false =>
      have := hfrom.noValue hk hval _ (List.mem_of_getElem? hitem)
      rw [hitem, Option.bind_some, this] at hinitial
      cases hinitial
  · rintro ⟨j, hj, hsome⟩
    refine Option.eq_none_iff_forall_ne_some.mpr fun o ho => ?_
    obtain ⟨e', he', -, hroot, -⟩ := Layout.of_offsetFor? ho
    obtain rfl : e = e' := Option.some.inj (he.symm.trans he')
    rw [(hfrom.initial hk).2 j (by omega)] at hsome
    cases hsome

/-- The names in `seen` are those that the first `root` items give values to. -/
def SeenBefore (items : List Stmt) (root : Nat) (seen : List String) : Prop :=
  ∀ x, x ∈ seen ↔ ∃ j < root, ((items[j]?).bind (Stmt.initial? x)).isSome = true

theorem SeenBefore.start (items : List Stmt) : SeenBefore items 0 [] := by
  intro x
  simp

theorem exists_initial?_succ {item : Stmt} (hitem : items[root]? = some item) (x : String) :
    (∃ j < root + 1, ((items[j]?).bind (Stmt.initial? x)).isSome = true) ↔
      (∃ j < root, ((items[j]?).bind (Stmt.initial? x)).isSome = true) ∨ (item.initial? x).isSome = true := by
  rw [Nat.exists_lt_succ_right, hitem]
  rfl

theorem SeenBefore.skip {seen : List String} {item : Stmt} (h : SeenBefore items root seen)
    (hitem : items[root]? = some item) (hnone : ∀ x, item.initial? x = none) : SeenBefore items (root + 1) seen := by
  intro x
  rw [h x, exists_initial?_succ hitem, hnone]
  simp

theorem SeenBefore.declareAs {root : Nat} {seen : List String} {name : Token} {ty : TypeExpr} {value : Expr}
    (h : SeenBefore items root seen) (hitem : items[root]? = some (.declareAs name ty value)) :
    SeenBefore items (root + 1) (name.text :: seen) := by
  intro x
  rw [List.mem_cons, h x, exists_initial?_succ hitem, or_comm]
  refine or_congr_right ?_
  by_cases hx : name.text = x
  · simp [Stmt.initial?, hx]
  · simp [Stmt.initial?, hx, Ne.symm hx]

/-- What becomes of the world where the item is reached that gives `t` a value. -/
def initGlobal (call : Caller) (seen : List String) (t : Token) (e : Expr) (world : World) : Option World :=
  if t.text ∈ seen ∨ (e.atom?.bind Token.value?).isSome then some world
  else do
    let (v, σ) ← (e.eval call (some t.text) { world with locals := [] }).bind valueOf?
    let σ ← σ.write none t.text v
    return σ.toWorld

theorem initGlobals_declareAs (call : Caller) (seen : List String) (t : Token) (ty : TypeExpr) (e : Expr)
    (rest : List Stmt) (world : World) : initGlobals call seen (.declareAs t ty e :: rest) world =
      (initGlobal call seen t e world).bind (initGlobals call (t.text :: seen) rest) := by
  unfold initGlobal
  rw [initGlobals]
  split
  · rfl
  · simp [Option.bind_assoc]

/-- Between two items there are no blocks. -/
theorem Holding.between {m₀ m : Machine} {env : Env} {σ : Store} (h : Holding m₀ env σ m) (hb : env.blocks = []) :
    Holding m₀ env { toWorld := σ.toWorld } m := by
  refine ⟨h.like, h.rsp, ?_, h.world⟩
  rw [hb]
  exact ⟨rfl, fun i x _ => rfl, fun i x v hv => by cases hv⟩

section

variable {roomy : Prop} {call : Caller} {room : Nat} {m₀ : Machine} (h : scope.Traced items)
  (hs : ∀ p ∈ scope, p.2.OK items p.1)
  (hcalls : CallsOK roomy scope.arities m₀.program (GlobalContext.ofItems items scope).env.globals
    (Layout.ofItems scope items).size room call)
  (hg : m₀.Ground (Layout.ofItems scope items).size 0)
  (hroom : roomy → m₀.stackLimit.toNat + room ≤ m₀.rsp.toNat)
include h

/-- The value on top of the stack is written to a global. -/
theorem does_storeGlobal (hg : m₀.Ground (Layout.ofItems scope items).size 0) {name : Token}
    (he : scope.get? name.text = some e) (hk : e.kind = .var)
    (ho : (Layout.ofItems scope items).offsets.get? name.text = some o) {σ σ' : Store} {m : Machine} {v : UInt64}
    {st : List UInt64} (hw : σ.write none name.text v = some σ')
    (hm : Holding m₀ (GlobalContext.ofItems items scope).env σ m) (hst : m.stack = v :: st) (span : Span) :
    Does (.overflow roomy) (storeGlobal o span) m fun m' =>
      m'.stack = st ∧ Holding m₀ (GlobalContext.ofItems items scope).env σ' m' := by
  have haddress : Does (.overflow roomy) [Storage.addressCommand span (.static o)] m fun m' =>
      m' = { m with steps := m.steps + 1, stack := Storage.address m.rbp (.static o) :: m.stack } := .address _ rfl
  refine haddress.append ?_
  rintro _ rfl
  have hm₁ := hm.operands (m.steps + 1) (Storage.address m.rbp (.static o) :: m.stack)
  obtain ⟨-, s, o', i, hs, hkept, hi, hm₂⟩ := hm₁.write (frameOK_ofItems items scope) (staticsOK_symbols items scope) hg hw
  obtain ⟨o'', s', ho'', hs', hkept'⟩ := h.placed he hk
  cases ho.symm.trans ho''
  obtain rfl : s' = s := Option.some.inj (hs'.symm.trans hs)
  obtain rfl : Storage.static o = o' := Option.some.inj (hkept'.storage.symm.trans hkept.storage)
  exact .store (congrArg (_ :: ·) hst) hi ⟨rfl, hm₂.operands _ _⟩

include hs hcalls hg hroom

/-- The value of a global is computed without the global itself. -/
theorem Scope.Traced.represents {name : Token} (he : scope.get? name.text = some e) (hk : e.kind = .var) :
    ({ (GlobalContext.ofItems items scope).env with excluded := some name.text } : Env).Represents (.overflow roomy) scope.arities call
      (some name.text) (Holding m₀ (GlobalContext.ofItems items scope).env) := by
  refine Holding.represents hcalls (frameOK_ofItems items scope) (staticsOK_symbols items scope) hg hroom ?_ (.inr rfl) ?_
  · refine Env.aritiesOK (globalsOK_symbols hs _) (fun _ h => by cases h) fun x hx => .inr fun s hsx => ?_
    obtain rfl : name.text = x := Option.some.inj hx
    obtain ⟨o, s', -, hs', hkept⟩ := h.placed he hk
    obtain rfl : s' = s := Option.some.inj (hs'.symm.trans hsx)
    rw [hkept.kind]
    decide
  · intro x hx
    exact Env.lookup?_eq hx

theorem ensures_does_initItem {seen : List String} {name : Token} {ty : TypeExpr} {value : Expr}
    (hv : value.Whole) (hitem : items[root]? = some (.declareAs name ty value))
    (hseen : SeenBefore items root seen) (slots : List UInt64) :
    Ensures accepted (initItem (.ofItems items scope) root (.declareAs name ty value) slots) fun r => ∀ world world' m,
      initGlobal call seen name value world = some world' →
      Holding m₀ (GlobalContext.ofItems items scope).env { toWorld := world } m → Does (.overflow roomy) r.2 m fun m' =>
        m'.stack = m.stack ∧ Holding m₀ (GlobalContext.ofItems items scope).env { toWorld := world' } m' := by
  have hnone := (h.offsetFor?_eq_none hitem).trans (hseen name.text).symm
  -- where no code is written, the world stays as it is
  have hnothing : name.text ∈ seen ∨ (value.atom?.bind Token.value?).isSome = true → ∀ world world' m,
      initGlobal call seen name value world = some world' →
      Holding m₀ (GlobalContext.ofItems items scope).env { toWorld := world } m → Does (.overflow roomy) [] m fun m' =>
        m'.stack = m.stack ∧ Holding m₀ (GlobalContext.ofItems items scope).env { toWorld := world' } m' := by
    intro hskip world world' m hinit hm
    rw [initGlobal, if_pos hskip] at hinit
    cases hinit
    exact .nil ⟨rfl, hm⟩
  unfold initItem
  dsimp only
  split
  next ho => exact .pure (hnothing (.inl (hnone.mp ho)))
  next offset ho =>
    have hfresh : name.text ∉ seen := by
      intro hmem
      cases (hnone.mpr hmem).symm.trans ho
    obtain ⟨e, he, hk, -, ho⟩ := Layout.of_offsetFor? ho
    split
    · exact (ensures_report _).bind fun _ => .pure fun hwarn => by cases hwarn
    rw [value.constant?_eq]
    split
    next v hlit => exact .pure (hnothing (.inr (by rw [hlit]; rfl)))
    next hlit =>
      refine accepted_value hv (hv.accepted_coded _) fun code => .pure fun hcode world world' m hinit hm => ?_
      rw [initGlobal, if_neg (by simp [hfresh, hlit])] at hinit
      obtain ⟨⟨v, σ⟩, heval, hinit⟩ := Option.bind_eq_some_iff.mp hinit
      obtain ⟨σ', hwrite, hinit⟩ := Option.bind_eq_some_iff.mp hinit
      cases hinit
      have hrep := h.represents hs hcalls hg hroom he hk
      refine ((hcode hrep.arities.valid).computed.value _ _ v σ hrep heval m hm).append fun m₁ hleft => ?_
      refine (does_storeGlobal h hg he hk ho hwrite hleft.2 hleft.1 name.span).mono fun m₂ hleft₂ => ⟨hleft₂.1, ?_⟩
      exact hleft₂.2.between rfl

/-- The globals get their values in the order of the text. -/
theorem ensures_does_initItems {rest : List Stmt} (hw : Stmt.WholeAll rest) {seen : List String}
    (hrest : ∀ i item, rest[i]? = some item → items[root + i]? = some item)
    (hscalar : ∀ item ∈ rest, item.isScalarItem = true) (hseen : SeenBefore items root seen) (slots : List UInt64) :
    Ensures accepted (initItems (.ofItems items scope) root slots rest) fun r => ∀ world world' m,
      initGlobals call seen rest world = some world' →
      Holding m₀ (GlobalContext.ofItems items scope).env { toWorld := world } m → Does (.overflow roomy) r.2 m fun m' =>
        m'.stack = m.stack ∧ Holding m₀ (GlobalContext.ofItems items scope).env { toWorld := world' } m' := by
  induction rest generalizing root seen slots with
  | nil =>
    refine .pure fun world world' m hinit hm => .nil ⟨rfl, ?_⟩
    cases hinit
    exact hm
  | cons item rest ih =>
    have hnext : ∀ i item', rest[i]? = some item' → items[root + 1 + i]? = some item' := by
      intro i item' hi
      rw [Nat.add_assoc, Nat.add_comm 1]
      exact hrest (i + 1) item' hi
    have hitem := hrest 0 item rfl
    have hscalar' := List.forall_mem_cons.mp hscalar
    cases hw with
    | cons hwhole hw =>
    cases hwhole with
    | @declareAs name ty value ht hv =>
      refine (ensures_does_initItem h hs hcalls hg hroom hv hitem hseen slots).bind fun r =>
        (ih hw hnext hscalar'.2 (hseen.declareAs hitem) r.1).bind fun r' => .pure ?_
      intro hrest hfirst world world' m hinit hm
      rw [initGlobals_declareAs] at hinit
      obtain ⟨world₁, hfirst', hinit⟩ := Option.bind_eq_some_iff.mp hinit
      refine (hfirst _ _ m hfirst' hm).append fun m₁ ⟨hst₁, hm₁⟩ => ?_
      exact (hrest _ _ m₁ hinit hm₁).mono fun m₂ ⟨hst₂, hm₂⟩ => ⟨hst₂.trans hst₁, hm₂⟩
    | define _ _ | declare _ =>
      refine Ensures.bind (.pure (Q := fun r => r = (slots, [])) rfl) fun r =>
        (ih hw hnext hscalar'.2 (hseen.skip hitem fun _ => rfl) r.1).bind fun r' => .pure ?_
      rintro hdoes rfl
      exact hdoes
    | _ => cases hscalar'.1

end

end

end Wordstack
