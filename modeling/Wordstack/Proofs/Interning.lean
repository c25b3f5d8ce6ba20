/-
String literals, from the table to memory. Texts that are interned get the same label if they are the same, and a label
leads to the bytes of its text. Memory is made of areas, one after the other: the globals, the texts and the stack of
frames.
-/
import Wordstack.Proofs.Symbols

namespace Wordstack

/-! ## Interning -/

namespace StringTable

/-- The labels of texts that are interned one after the other, and the table that is left. -/
def internAll (t : StringTable) : List String → List String × StringTable
  | [] => ([], t)
  | s :: ss =>
    let (label, t) := t.intern s
    let (labels, t) := internAll t ss
    (label :: labels, t)

/-- The label says where the text stands. -/
def Labelled (t : StringTable) (l s : String) : Prop := ∃ k, l = label k ∧ t.texts[k]? = some s

theorem internAll_spec (t : StringTable) (ss : List String) :
    t.texts <+: (t.internAll ss).2.texts ∧ List.Forall₂ (t.internAll ss).2.Labelled (t.internAll ss).1 ss := by
  induction ss generalizing t with
  | nil => exact ⟨List.prefix_rfl, .nil⟩
  | cons s ss ih =>
    obtain ⟨hinitial, k, hlabel, hk⟩ := t.intern_spec s
    obtain ⟨hmore, hlabels⟩ := ih (t.intern s).2
    exact ⟨hinitial.trans hmore, .cons ⟨k, hlabel, hk _ hmore⟩ hlabels⟩

theorem Labelled.eq_iff {t : StringTable} {l l' s s' : String} (h : t.Labelled l s) (h' : t.Labelled l' s') :
    l = l' ↔ s = s' := by
  obtain ⟨j, rfl, hj⟩ := h
  obtain ⟨k, rfl, hk⟩ := h'
  constructor
  · intro hl
    rw [label_injective hl, hk] at hj
    exact (Option.some.inj hj).symm
  · rintro rfl
    rw [Option.some.inj (((t.get?_places s j).mpr hj).symm.trans ((t.get?_places s k).mpr hk))]

theorem getElem?_entries {t : StringTable} {k : Nat} {s : String} (h : t.texts[k]? = some s) :
    t.entries[k]? = some (label k, bytes s) := by
  simp [entries, h]

end StringTable

/-! ## Areas of memory -/

/-- Bytes at an address. -/
structure Area where
  address : UInt64
  bytes : List UInt8

namespace Area

def Before (a b : Area) : Prop := a.address.toNat + a.bytes.length ≤ b.address.toNat

/-- The bytes lie in memory where the area says. -/
def HeldIn (m : Memory) (a : Area) : Prop :=
  ∃ front back, m.bytes.toList = front ++ a.bytes ++ back ∧ a.address.toNat = Memory.base.toNat + front.length

/-- The areas of bytes that lie one behind the other. -/
def row (start : UInt64) (chunks : List (List UInt8)) : List Area := List.zipWith mk (Machine.stringAddresses start chunks) chunks

theorem row_cons (start : UInt64) (bs : List UInt8) (chunks : List (List UInt8)) :
    row start (bs :: chunks) = ⟨start, bs⟩ :: row (start + bs.length.toUInt64) chunks := rfl

theorem row_append (start : UInt64) (xs ys : List (List UInt8)) :
    row start (xs ++ ys) = row start xs ++ row (start + xs.flatten.length.toUInt64) ys := by
  induction xs generalizing start with
  | nil => simp [row, Machine.stringAddresses]
  | cons x xs ih =>
    rw [List.cons_append, row_cons, row_cons, ih, List.cons_append, List.flatten_cons, List.length_append, Nat.toUInt64_eq,
      Nat.toUInt64_eq, Nat.toUInt64_eq, UInt64.ofNat_add, UInt64.add_assoc]

theorem row_words (ws : List UInt64) (n : Nat) : row (Memory.base + (8 * n).toUInt64) (ws.map Memory.wordBytes) =
      (ws.zipIdx n).map fun (w, g) => ⟨Memory.base + (8 * g).toUInt64, Memory.wordBytes w⟩ := by
  induction ws generalizing n with
  | nil => rfl
  | cons w ws ih =>
    have hnext : Memory.base + (8 * n).toUInt64 + (Memory.wordBytes w).length.toUInt64 =
        Memory.base + (8 * (n + 1)).toUInt64 := by
      rw [UInt64.add_assoc]
      exact congrArg _ (UInt64.ofNat_add _ _).symm
    rw [List.map_cons, row_cons, hnext, ih, List.zipIdx_cons, List.map_cons]

/-- The areas of a row do not overlap, and together they are all of its bytes. -/
theorem row_spec {start : UInt64} {chunks : List (List UInt8)} (h : start.toNat + chunks.flatten.length < UInt64.size) :
    (row start chunks).Pairwise Before ∧ ∀ a ∈ row start chunks,
      ∃ front back, chunks.flatten = front ++ a.bytes ++ back ∧ a.address.toNat = start.toNat + front.length := by
  induction chunks generalizing start with
  | nil => exact ⟨.nil, fun a ha => by cases ha⟩
  | cons bs chunks ih =>
    rw [List.flatten_cons, List.length_append] at h
    have hsize : UInt64.size = 2 ^ 64 := rfl
    have hstart : (start + bs.length.toUInt64).toNat = start.toNat + bs.length := by
      rw [UInt64.toNat_add, toNat_toUInt64_of_le (Nat.le_refl _) (by omega), Nat.mod_eq_of_lt (by omega)]
    obtain ⟨hpairwise, hmem⟩ := @ih (start + bs.length.toUInt64) (by omega)
    rw [row_cons]
    refine ⟨.cons (fun a ha => ?_) hpairwise, List.forall_mem_cons.mpr ⟨⟨[], _, rfl, rfl⟩, fun a ha => ?_⟩⟩
    · obtain ⟨front, -, -, haddress⟩ := hmem a ha
      show start.toNat + bs.length ≤ a.address.toNat
      omega
    · obtain ⟨front, back, hbytes, haddress⟩ := hmem a ha
      refine ⟨bs ++ front, back, ?_, ?_⟩
      · rw [List.flatten_cons, hbytes, List.append_assoc, List.append_assoc, List.append_assoc]
      · rw [haddress, hstart, List.length_append, Nat.add_assoc]

end Area

namespace Machine

/-- What the memory of a machine is used for: the globals with their first words, the texts, the stack of frames. -/
def areas (m : Machine) : List Area :=
  (m.program.globals.zipIdx.map fun (w, g) => ⟨Memory.base + (8 * g).toUInt64, Memory.wordBytes w⟩) ++
    List.zipWith Area.mk m.strings (m.program.strings.texts.map StringTable.bytes) ++
      [⟨m.stackLimit, List.replicate stackSize 0⟩]

variable (p : Program) (fuel : Nat)

theorem areas_ofProgram : (ofProgram p fuel).areas =
    (p.globals.zipIdx.map fun (w, g) => ⟨Memory.base + (8 * g).toUInt64, Memory.wordBytes w⟩) ++
      List.zipWith Area.mk (ofProgram p fuel).strings (p.strings.texts.map StringTable.bytes) ++
        [⟨(ofProgram p fuel).stackLimit, List.replicate stackSize 0⟩] := rfl

/-- All of the memory that a machine starts with, the bytes that fill up the last multiple of 16 included. -/
def chunks : List (List UInt8) :=
  p.globals.map Memory.wordBytes ++ p.strings.texts.map StringTable.bytes ++
    [List.replicate (roundUp p.data.length - p.data.length) 0, List.replicate stackSize 0]

theorem flatten_chunks : (chunks p).flatten = (ofProgram p fuel).memory.bytes.toList := by
  rw [memory_ofProgram, chunks, List.flatten_append, List.flatten_append, ← List.flatMap_def, Program.data]
  simp

theorem areas_sublist : (ofProgram p fuel).areas.Sublist (Area.row Memory.base (chunks p)) := by
  have hlength : (p.globals.map Memory.wordBytes ++ p.strings.texts.map StringTable.bytes).flatten.length = p.data.length := by
    rw [List.flatten_append, ← List.flatMap_def, Program.data]
  have hlimit : Memory.base + p.data.length.toUInt64 + (roundUp p.data.length - p.data.length).toUInt64 =
      (ofProgram p fuel).stackLimit := by
    rw [UInt64.add_assoc]
    exact congrArg _ ((UInt64.ofNat_add _ _).symm.trans (congrArg UInt64.ofNat (Nat.add_sub_cancel' (le_roundUp _))))
  rw [areas_ofProgram, chunks, Area.row_append, Area.row_append, hlength]
  refine .append (.append ?_ ?_) ?_
  · rw [← Area.row_words p.globals 0]
    exact .refl _
  · rw [← List.flatMap_def]
    exact .refl _
  · rw [Area.row_cons, Area.row_cons, List.length_replicate, hlimit]
    exact .cons _ (.refl _)

variable {p}

/-- The areas lie in memory, one behind the other. -/
theorem areas_spec (h : p.Fits) : (ofProgram p fuel).areas.Pairwise Area.Before ∧
    ∀ a ∈ (ofProgram p fuel).areas, a.HeldIn (ofProgram p fuel).memory := by
  have hfits : Memory.base.toNat + (chunks p).flatten.length < UInt64.size := by
    rw [flatten_chunks p fuel, Array.length_toList, size_ofProgram, ← Nat.add_assoc]
    exact h
  have hsub := areas_sublist p fuel
  obtain ⟨hpairwise, hmem⟩ := Area.row_spec hfits
  rw [flatten_chunks p fuel] at hmem
  exact ⟨hpairwise.sublist hsub, fun a ha => hmem a (hsub.subset ha)⟩

/-- The label of a text leads to its area. -/
theorem exists_area {k : Nat} {s : String} (hs : p.strings.texts[k]? = some s) :
    ∃ a, labelAddress (StringTable.label k) (ofProgram p fuel) = .ok a (ofProgram p fuel) ∧
      (ofProgram p fuel).areas[p.globals.length + k]? = some ⟨a, StringTable.bytes s⟩ := by
  obtain ⟨o, hstring, -⟩ := text_ofProgram p fuel hs
  have hk : k < p.strings.size := (List.getElem?_eq_some_iff.mp hs).1
  refine ⟨Memory.base + o.toUInt64, ?_, ?_⟩
  · rw [(Program.resolves_text hk).1 _ rfl, Target.address, List.getD_eq_getElem?_getD, hstring]
    rfl
  · have hzip : (List.zipWith Area.mk (ofProgram p fuel).strings (p.strings.texts.map StringTable.bytes))[k]? =
        some ⟨Memory.base + o.toUInt64, StringTable.bytes s⟩ := by
      rw [List.getElem?_zipWith, hstring, List.getElem?_map, hs]
      rfl
    rw [areas_ofProgram, List.append_assoc, List.getElem?_append_right (by simp), List.length_map, List.length_zipIdx,
      Nat.add_sub_cancel_left, List.getElem?_append_left (List.getElem?_eq_some_iff.mp hzip).1, hzip]

end Machine

/-- Texts that are interned have the same label exactly if they are the same. In a machine whose program has that table, the
label of a text leads to an area that is its own and holds its bytes; the globals, the texts and the stack of
frames have areas of memory that do not overlap. -/
theorem literals_laid_out (ss : List String) {p : Program} (hp : p.strings = (StringTable.internAll {} ss).2) (hfits : p.Fits)
    (fuel : Nat) :
    let labels := (StringTable.internAll {} ss).1
    let m := Machine.ofProgram p fuel
    labels.length = ss.length ∧
    (∀ x ∈ labels.zip ss, ∀ y ∈ labels.zip ss, x.1 = y.1 ↔ x.2 = y.2) ∧
    (∀ x ∈ labels.zip ss, ∃ k a, p.strings.lookup? x.1 = some k ∧ p.strings.entries[k]? = some (x.1, StringTable.bytes x.2) ∧
      Machine.labelAddress x.1 m = .ok a m ∧ m.areas[p.globals.length + k]? = some ⟨a, StringTable.bytes x.2⟩) ∧
    m.areas.Pairwise Area.Before ∧ ∀ a ∈ m.areas, a.HeldIn m.memory := by
  obtain ⟨hlength, hlabels⟩ := List.forall₂_iff_zip.mp (StringTable.internAll_spec {} ss).2
  rw [← hp] at hlabels
  refine ⟨hlength, fun x hx y hy => (hlabels hx).eq_iff (hlabels hy), fun x hx => ?_, Machine.areas_spec fuel hfits⟩
  obtain ⟨k, hl, hk⟩ := hlabels hx
  have hlt : k < p.strings.size := (List.getElem?_eq_some_iff.mp hk).1
  obtain ⟨a, haddress, harea⟩ := Machine.exists_area fuel hk
  refine ⟨k, a, ?_, ?_, hl ▸ haddress, harea⟩
  · rw [hl, StringTable.lookup?_label, if_pos hlt]
  · rw [hl, StringTable.getElem?_entries hk]

/-- A text, the empty text, and the first one once more. -/
theorem literals_laid_out_again :
    let p : Program := { globals := [7], strings := (StringTable.internAll {} ["a", "", "a"]).2 }
    p.Fits ∧ (StringTable.internAll {} ["a", "", "a"]).1 = ["str_0", "str_1", "str_0"] ∧
      (Machine.ofProgram p 1).areas.Pairwise Area.Before ∧
        ∀ a ∈ (Machine.ofProgram p 1).areas, a.HeldIn (Machine.ofProgram p 1).memory := by
  intro p
  have hfits : p.Fits := by decide +kernel
  exact ⟨hfits, by decide +kernel, (literals_laid_out ["a", "", "a"] rfl hfits 1).2.2.2⟩

end Wordstack
