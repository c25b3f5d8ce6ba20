/-
Types as they are described by type expressions. Every scalar takes one slot of eight
bytes; an array, nested or not, is so many slots in a row.
-/
import Wordstack.Tree.Outline
import Wordstack.Diagnostic

namespace Wordstack

mutual

/-- What a type is made of, pointers and arrays aside. -/
inductive BaseType
  | primitive (p : Primitive)
  | named (name : String)
  | function (signature : Signature)

structure Ty where
  base : BaseType
  pointerDepth : Nat
  /-- The number of slots of an array. -/
  arrayLen : Option Nat

structure Signature where
  params : List Parameter
  returns : List Ty
  /-- Whether the function is defined elsewhere. -/
  external : Bool

structure Parameter where
  name : String
  type : Ty

end

/-! ## Equality -/

mutual

def BaseType.same : BaseType → BaseType → Bool
  | .primitive p, .primitive q => p == q
  | .named a, .named b => a == b
  | .function s, .function t => s.same t
  | _, _ => false

def Ty.same : Ty → Ty → Bool
  | ⟨b, d, n⟩, ⟨c, e, m⟩ => b.same c && d == e && n == m

def Signature.same : Signature → Signature → Bool
  | ⟨ps, rs, x⟩, ⟨qs, ss, y⟩ => Parameter.sameList ps qs && Ty.sameList rs ss && x == y

def Parameter.same : Parameter → Parameter → Bool
  | ⟨a, t⟩, ⟨b, u⟩ => a == b && t.same u

def Parameter.sameList : List Parameter → List Parameter → Bool
  | [], [] => true
  | p :: ps, q :: qs => p.same q && Parameter.sameList ps qs
  | _, _ => false

def Ty.sameList : List Ty → List Ty → Bool
  | [], [] => true
  | t :: ts, u :: us => t.same u && Ty.sameList ts us
  | _, _ => false

end

mutual

theorem BaseType.same_iff : ∀ a b : BaseType, a.same b = true ↔ a = b
  | .primitive p, .primitive q => by simp [BaseType.same]
  | .named a, .named b => by simp [BaseType.same]
  | .function s, .function t => by simp [BaseType.same, Signature.same_iff s t]
  | .primitive _, .named _ | .primitive _, .function _ | .named _, .primitive _
  | .named _, .function _ | .function _, .primitive _ | .function _, .named _ => by
    simp [BaseType.same]

theorem Ty.same_iff : ∀ a b : Ty, a.same b = true ↔ a = b
  | ⟨b, d, n⟩, ⟨c, e, m⟩ => by simp [Ty.same, BaseType.same_iff b c, and_assoc]

theorem Signature.same_iff : ∀ a b : Signature, a.same b = true ↔ a = b
  | ⟨ps, rs, x⟩, ⟨qs, ss, y⟩ => by
    simp [Signature.same, Parameter.sameList_iff ps qs, Ty.sameList_iff rs ss, and_assoc]

theorem Parameter.same_iff : ∀ a b : Parameter, a.same b = true ↔ a = b
  | ⟨a, t⟩, ⟨b, u⟩ => by simp [Parameter.same, Ty.same_iff t u]

theorem Parameter.sameList_iff : ∀ as bs : List Parameter, Parameter.sameList as bs = true ↔ as = bs
  | [], [] | [], _ :: _ | _ :: _, [] => by simp [Parameter.sameList]
  | p :: ps, q :: qs => by
    simp [Parameter.sameList, Parameter.same_iff p q, Parameter.sameList_iff ps qs]

theorem Ty.sameList_iff : ∀ as bs : List Ty, Ty.sameList as bs = true ↔ as = bs
  | [], [] | [], _ :: _ | _ :: _, [] => by simp [Ty.sameList]
  | t :: ts, u :: us => by simp [Ty.sameList, Ty.same_iff t u, Ty.sameList_iff ts us]

end

instance : DecidableEq Ty := fun a b => decidable_of_iff _ (Ty.same_iff a b)

instance : DecidableEq Signature := fun a b => decidable_of_iff _ (Signature.same_iff a b)

namespace Ty

/-- The bytes of a slot. -/
def slotSize : Nat := 8

def size (t : Ty) : Nat := slotSize * t.arrayLen.getD 1

def isArray (t : Ty) : Bool := t.arrayLen.isSome

/-- An argument that is an array arrives as a pointer to its first slot. -/
def asArgument (t : Ty) : Ty :=
  if t.isArray then { t with pointerDepth := t.pointerDepth + 1, arrayLen := none } else t

end Ty

/-- Same parameter and return types, parameter names aside. -/
def Signature.agrees (s t : Signature) : Bool :=
  s.returns == t.returns && s.params.map (·.type) == t.params.map (·.type)

end Wordstack
