/-
The string literals of a program. Each text is kept once and has a label.
-/
import Wordstack.NameTable

namespace Wordstack

theorem NameTable.get?_nil (text : String) (i : Nat) :
    NameTable.get? text [] = some i ↔ ([] : List String)[i]? = some text := by simp [NameTable.get?]

structure StringTable where
  texts : List String := []
  /-- Where each text stands. -/
  places : NameTable Nat := []
  get?_places : ∀ text i, places.get? text = some i ↔ texts[i]? = some text := by exact NameTable.get?_nil

namespace StringTable

def size (t : StringTable) : Nat := t.texts.length

def isEmpty (t : StringTable) : Bool := t.texts.isEmpty

def label (index : Nat) : String := s!"str_{index}"

/-- The table with a new text behind the others. -/
def push (t : StringTable) (text : String) (h : t.places.get? text = none) : StringTable where
  texts := t.texts ++ [text]
  places := t.places.set text t.size
  get?_places x i := by
    have hx := t.get?_places x i
    rw [NameTable.get?_set, size, List.getElem?_append]
    grind

/-- The label of a text, which is added if it is new. -/
def intern (t : StringTable) (text : String) : String × StringTable :=
  match h : t.places.get? text with
  | some i => (label i, t)
  | none => (label t.size, t.push text h)

/-- The label of a text says where it stands in the table, and in every table made from that one. -/
theorem intern_spec (t : StringTable) (text : String) : t.texts <+: (t.intern text).2.texts ∧
      ∃ i, (t.intern text).1 = label i ∧ ∀ texts, (t.intern text).2.texts <+: texts → texts[i]? = some text := by
  have hplace : ∃ i, (t.intern text).1 = label i ∧ (t.intern text).2.texts[i]? = some text := by
    unfold intern
    split
    next i h => exact ⟨i, rfl, (t.get?_places text i).mp h⟩
    · exact ⟨t.size, rfl, List.getElem?_concat_length⟩
  refine ⟨?_, ?_⟩
  · unfold intern
    split
    · exact List.prefix_rfl
    · exact List.prefix_append _ _
  · obtain ⟨i, hlabel, hi⟩ := hplace
    obtain ⟨hlt, hi⟩ := List.getElem?_eq_some_iff.mp hi
    exact ⟨i, hlabel, fun texts h => hi ▸ List.prefix_iff_getElem?.mp h i hlt⟩

/-- A text as it stands in memory, with a zero byte behind it. -/
def bytes (text : String) : List UInt8 := text.toUTF8.data.toList ++ [0]

/-- The label and the bytes of every text. -/
def entries (t : StringTable) : List (String × List UInt8) :=
  t.texts.zipIdx.map fun (text, i) => (label i, bytes text)

/-- The number that decimal digits, with or without a plus sign, stand for. -/
def index? (cs : List Char) : Option Nat :=
  let digits := match cs with
    | '+' :: ds => ds
    | ds => ds
  if digits.isEmpty || !digits.all Char.isDigit then none
  else some (digits.foldl (fun n d => 10 * n + (d.toNat - '0'.toNat)) 0)

/-- Which text a label stands for. -/
def lookup? (t : StringTable) (name : String) : Option Nat :=
  match name.toList with
  | 's' :: 't' :: 'r' :: '_' :: cs => (index? cs).filter (· < t.size)
  | _ => none

end StringTable
end Wordstack
