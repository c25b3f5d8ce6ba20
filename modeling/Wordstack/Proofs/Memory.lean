/-
Laws of memory: a word that is written is read back, and what lies eight bytes or more
away stays as it was.
-/
import Wordstack.Machine.Memory

namespace Wordstack.Memory

variable {a : UInt64} {i : Nat} {m : Memory}

/-! ## Words and their bytes -/

/-- A word is its lowest byte and the rest. -/
theorem low_byte (w : UInt64) : w % 256 + 256 * (w / 256) = w := by
  apply UInt64.toNat_inj.mp
  have h := w.toNat_lt
  simp only [UInt64.toNat_add, UInt64.toNat_mul, UInt64.toNat_mod, UInt64.toNat_div,
    UInt64.toNat_ofNat, Nat.reducePow, Nat.reduceMod] at *
  omega

/-- The bytes of a word make it up again. -/
theorem word_of_bytes (w : UInt64) : w % 256 + 256 * (w / 256 % 256 + 256 * (w / 65536 % 256 + 256 * (w / 16777216 % 256 +
      256 * (w / 4294967296 % 256 + 256 * (w / 1099511627776 % 256 +
      256 * (w / 281474976710656 % 256 + 256 * (w / 72057594037927936 % 256))))))) = w := by
  have shift (a b c : UInt64) (h : c.toNat = a.toNat * b.toNat) : w / c = w / a / b := by
    apply UInt64.toNat_inj.mp
    simp only [UInt64.toNat_div, h, Nat.div_div_eq_div_mul]
  have top : w / 72057594037927936 % 256 = w / 72057594037927936 := by
    apply UInt64.toNat_inj.mp
    have h := w.toNat_lt
    simp only [UInt64.toNat_mod, UInt64.toNat_div, UInt64.toNat_ofNat, Nat.reducePow,
      Nat.reduceMod] at *
    omega
  rw [top, shift 281474976710656 256 72057594037927936 rfl, low_byte,
    shift 1099511627776 256 281474976710656 rfl, low_byte, shift 4294967296 256 1099511627776 rfl,
    low_byte, shift 16777216 256 4294967296 rfl, low_byte, shift 65536 256 16777216 rfl, low_byte,
    shift 256 256 65536 rfl, low_byte, low_byte]

/-! ## Offsets -/

@[simp] theorem size_setWordAt (m : Memory) (i : Nat) (w : UInt64) : (m.setWordAt i w).bytes.size = m.bytes.size := by
  simp [setWordAt]

theorem getElem?_setWordAt_of_apart (m : Memory) {i j : Nat} (w : UInt64) (h : j < i ∨ i + 8 ≤ j) :
    (m.setWordAt i w).bytes[j]? = m.bytes[j]? := by
  have hne : ∀ k < 8, i + k ≠ j := by omega
  simp [setWordAt, hne, show i ≠ j by omega]

theorem wordAt_setWordAt_self (m : Memory) (i : Nat) (w : UInt64) (h : i + 8 ≤ m.bytes.size) :
    (m.setWordAt i w).wordAt i = w := by
  have hb (k : Nat) (hk : k < 8) : i + k < m.bytes.size := by omega
  simp only [wordAt, setWordAt, Array.getD_eq_getD_getElem?, Array.getElem?_setIfInBounds]
  simp [hb, word_of_bytes, show i < m.bytes.size by omega]

/-- What lies elsewhere stays as it is. -/
theorem wordAt_setWordAt_of_apart (m : Memory) (i j : Nat) (w : UInt64) (h : i + 8 ≤ j ∨ j + 8 ≤ i) :
    (m.setWordAt i w).wordAt j = m.wordAt j := by
  have hn (a b : Nat) (ha : a < 8) (hb : b < 8) : i + a ≠ j + b := by omega
  have h0 (b : Nat) (hb : b < 8) : i ≠ j + b := by omega
  have byte (k : Nat) (hk : k < 8) :
      (m.setWordAt i w).bytes.getD (j + k) 0 = m.bytes.getD (j + k) 0 := by
    simp [setWordAt, Array.getD_eq_getD_getElem?, hn, h0, hk]
  simp only [wordAt, byte, Nat.reduceLT]

/-! ## Addresses -/

/-- The eight bytes from an address on are all in memory. -/
def InRange (m : Memory) (a : UInt64) : Prop :=
  base.toNat ≤ a.toNat ∧ a.toNat + 8 ≤ base.toNat + m.bytes.size

theorem offset?_eq_some : m.offset? a = some i ↔ m.InRange a ∧ i = a.toNat - base.toNat := by
  unfold offset? InRange
  split
  next h =>
    obtain ⟨h1, h2⟩ := h
    rw [UInt64.le_iff_toNat_le] at h1
    simp only [Option.some.injEq]
    constructor
    · intro hi
      exact ⟨⟨h1, by omega⟩, hi.symm⟩
    · rintro ⟨_, hi⟩
      exact hi.symm
  next h =>
    simp only [reduceCtorEq, false_iff, not_and]
    rintro ⟨h1, h2⟩
    exact absurd ⟨UInt64.le_iff_toNat_le.mpr h1, by omega⟩ h

theorem InRange.offset? (h : m.InRange a) : m.offset? a = some (a.toNat - base.toNat) :=
  offset?_eq_some.mpr ⟨h, rfl⟩

theorem InRange.load? (h : m.InRange a) : m.load? a = some (m.wordAt (a.toNat - base.toNat)) := by
  simp [Memory.load?, h.offset?]

theorem load?_eq_none (h : ¬ m.InRange a) : m.load? a = none := by
  cases ho : m.offset? a with
  | none => simp [Memory.load?, ho]
  | some i => exact absurd (offset?_eq_some.mp ho).1 h

theorem inRange_of_load? {w : UInt64} (h : m.load? a = some w) : m.InRange a := by
  refine Classical.byContradiction fun hn => ?_
  rw [load?_eq_none hn] at h
  cases h

@[simp] theorem inRange_setWordAt {w : UInt64} : (m.setWordAt i w).InRange a ↔ m.InRange a := by
  unfold InRange
  rw [size_setWordAt]

/-- A word that is written is read back. -/
theorem load?_setWordAt_self (v : UInt64) (h : m.offset? a = some i) : (m.setWordAt i v).load? a = some v := by
  obtain ⟨hr, hi⟩ := offset?_eq_some.mp h
  rw [hi]
  rw [(inRange_setWordAt.mpr hr).load?, wordAt_setWordAt_self]
  obtain ⟨h1, h2⟩ := hr
  omega

/-- A word that lies elsewhere is read as before. -/
theorem load?_setWordAt_of_apart {b : UInt64} (v : UInt64)
    (h : m.offset? a = some i) (hab : a.toNat + 8 ≤ b.toNat ∨ b.toNat + 8 ≤ a.toNat) :
    (m.setWordAt i v).load? b = m.load? b := by
  obtain ⟨hr, hi⟩ := offset?_eq_some.mp h
  rw [hi]
  by_cases hb : m.InRange b
  · rw [hb.load?, (inRange_setWordAt.mpr hb).load?, wordAt_setWordAt_of_apart]
    obtain ⟨h1, _⟩ := hr
    obtain ⟨h2, _⟩ := hb
    omega
  · rw [load?_eq_none hb, load?_eq_none (fun h => hb (inRange_setWordAt.mp h))]

end Wordstack.Memory
