/-
Memory, byte by byte. Addresses start at `Memory.base`, so that small numbers are no
addresses; words are read and written as eight bytes, the lowest one first.
-/

namespace Wordstack

structure Memory where
  bytes : Array UInt8

namespace Memory

/-- The address of the first byte. -/
def base : UInt64 := 0x1000

/-- The bytes of a word. -/
def wordBytes (w : UInt64) : List UInt8 :=
  [w.toUInt8, (w / 0x100).toUInt8, (w / 0x10000).toUInt8, (w / 0x1000000).toUInt8,
   (w / 0x100000000).toUInt8, (w / 0x10000000000).toUInt8, (w / 0x1000000000000).toUInt8,
   (w / 0x100000000000000).toUInt8]

/-- Where the eight bytes from `address` on lie, if all of them are in memory. -/
def offset? (m : Memory) (address : UInt64) : Option Nat :=
  if base ≤ address ∧ address.toNat - base.toNat + 8 ≤ m.bytes.size then
    some (address.toNat - base.toNat)
  else none

/-- The word at an offset. -/
def wordAt (m : Memory) (i : Nat) : UInt64 :=
  let at' (k : Nat) : UInt64 := (m.bytes.getD (i + k) 0).toUInt64
  at' 0 + 256 * (at' 1 + 256 * (at' 2 + 256 * (at' 3 + 256 * (at' 4 + 256 * (at' 5 +
    256 * (at' 6 + 256 * at' 7))))))

/-- Memory with a word written at an offset. -/
def setWordAt (m : Memory) (i : Nat) (w : UInt64) : Memory where
  bytes :=
    m.bytes
      |>.setIfInBounds i w.toUInt8
      |>.setIfInBounds (i + 1) (w / 0x100).toUInt8
      |>.setIfInBounds (i + 2) (w / 0x10000).toUInt8
      |>.setIfInBounds (i + 3) (w / 0x1000000).toUInt8
      |>.setIfInBounds (i + 4) (w / 0x100000000).toUInt8
      |>.setIfInBounds (i + 5) (w / 0x10000000000).toUInt8
      |>.setIfInBounds (i + 6) (w / 0x1000000000000).toUInt8
      |>.setIfInBounds (i + 7) (w / 0x100000000000000).toUInt8

def load? (m : Memory) (address : UInt64) : Option UInt64 :=
  (m.offset? address).map m.wordAt

def store? (m : Memory) (address value : UInt64) : Option Memory :=
  match m.offset? address with
  | some i => some (m.setWordAt i value)
  | none => none

end Memory
end Wordstack
