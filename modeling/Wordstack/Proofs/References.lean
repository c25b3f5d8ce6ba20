/-
What code refers to: places in the frame, places among the globals, and labels. A command that was made for a name may
become one that writes, calls or takes an address; what it refers to stays the same, and so does the
part of the text that it was made for.
-/
import Wordstack.Proofs.Balance

namespace Wordstack

open Lower

inductive Referent
  /-- A place in the frame, so many bytes below its base. -/
  | frame (offset : UInt64)
  /-- A place among the globals. -/
  | static (offset : UInt64)
  /-- A function or a text. -/
  | label (name : String)
deriving DecidableEq

def Operand.inFrame? : Operand → Option Referent
  | .unsigned o => some (.frame o)
  | _ => .none

def Operand.global? : Operand → Option Referent
  | .unsigned o => some (.static o)
  | .label l => some (.label l)
  | _ => .none

/-- What a command reads, calls or takes the address of. -/
def Command.referent? (c : Command) : Option Referent :=
  match c.op with
  | .pushStack | .pushSea => c.operand.inFrame?
  | .pushGlobal | .pushGea | .call => c.operand.global?
  | _ => none

/-- All that a piece of code refers to, with the parts of the text that ask for it. -/
def references (cs : List Command) : List (Span × Referent) := cs.filterMap fun c => c.referent?.map (c.span, ·)

/-- What the code of a function refers to on behalf of one part of the text. -/
def Function.referencesAt (f : Function) (p : Span) : List Referent :=
  ((references (f.code.toList.map Instr.toCommand)).filter (·.1 = p)).map (·.2)

/-! ## Commands -/

@[simp] theorem references_nil : references [] = [] := rfl

@[simp] theorem references_append (cs ds : List Command) : references (cs ++ ds) = references cs ++ references ds :=
  List.filterMap_append

theorem references_cons (c : Command) (cs : List Command) :
    references (c :: cs) = (c.referent?.map (c.span, ·)).toList ++ references cs := by
  cases h : c.referent? <;> simp [references, h]

theorem references_cons_none {c : Command} (h : c.referent? = none) (cs : List Command) :
    references (c :: cs) = references cs := by
  rw [references_cons, h]
  rfl

@[simp] theorem references_popCommands (n : Nat) (span : Span) : references (popCommands n span) = [] := by
  induction n with
  | zero => rfl
  | succ n ih => exact (references_cons_none rfl _).trans ih

@[simp] theorem references_freeCommands (n : Nat) (span : Span) : references (freeCommands n span) = [] := by
  unfold freeCommands
  split <;> rfl

@[simp] theorem references_allocCommand (n : Nat) (span : Span) (cs : List Command) :
    references (allocCommand n span :: cs) = references cs :=
  references_cons_none rfl cs

@[simp] theorem references_storeLocal (n : Nat) (span : Span) :
    references (storeLocal n span) = [(span, .frame n.toUInt64)] := rfl

theorem references_shortCircuit {skip : Opcode} (hs : skip = .jumpIf ∨ skip = .jumpIfNot) (span : Span)
    (left right : List Command) : references (shortCircuit skip span left right) = references left ++ references right := by
  rcases hs with rfl | rfl <;> simp [shortCircuit, references_cons, Command.referent?]

/-- The way out of a function refers to nothing. -/
theorem references_leave (cs : List Command) (n : Nat) (span : Span) :
    references (cs ++ freeCommands n span ++ [{ op := .framePop, span }, { op := .ret, span }]) = references cs := by
  simp [references_cons, Command.referent?]

theorem references_functionEnd (returns : Nat) (span : Span) : references (functionEnd returns span) = [] := by
  unfold functionEnd
  split <;> rfl

/-! ## Code with open jumps -/

/-- All that a piece of code refers to; its open jumps refer to nothing. -/
def Code.references (code : Code) : List (Span × Referent) := Wordstack.references code.commands

namespace Code

@[simp] theorem references_ofCommands (cs : List Command) : (ofCommands cs).references = Wordstack.references cs :=
  congrArg Wordstack.references (commands_ofCommands cs)

@[simp] theorem references_append (a b : Code) : (a ++ b).references = a.references ++ b.references := by
  rw [references, commands_append, Wordstack.references_append]
  rfl

theorem references_settle (total first : Nat) (code : Code) : (code.settle total first).references = code.references := by
  induction code generalizing first with
  | nil => rfl
  | cons step code ih =>
    cases step with
    | command c =>
      show Wordstack.references (c :: commands (settle total (first + 1) code)) =
        Wordstack.references (c :: commands code)
      rw [references_cons, references_cons]
      exact congrArg _ (ih (first + 1))
    | pending exit span => exact ih (first + 1)

theorem references_ifThen (span : Span) (cs : List Command) (yes : Code) :
    (ifThen span cs yes).references = Wordstack.references cs ++ yes.references := by
  simp [ifThen, references_cons, Command.referent?]

theorem references_ifElse (span : Span) (cs : List Command) (yes no : Code) :
    (ifElse span cs yes no).references = Wordstack.references cs ++ yes.references ++ no.references := by
  simp [ifElse, references_cons, Command.referent?]

theorem references_loop (span : Span) (cs : List Command) (body : Code) :
    (loop span cs body).references = Wordstack.references cs ++ body.references := by
  simp [loop, references_cons, Command.referent?, references_settle]

end Code

/-! ## Places -/

/-- The code of a place refers to the same, whether it is read, written to or its address is taken. -/
theorem LvalueCode.references_eq {mode : LvalueMode} {read cs : List Command} (h : LvalueCode mode read cs) :
    references cs = references read := by
  obtain @⟨front, ⟨o, operand, span⟩, op, store, h⟩ := h
  have hstore : references (if store = true then [{ op := .store, span }] else []) = [] := by
    split <;> rfl
  have hlast : Command.referent? { op, operand, span } = Command.referent? { op := o, operand, span } := by
    cases o <;> cases mode <;> simp [Opcode.toLvalue?] at h <;> obtain ⟨rfl, -⟩ := h <;> rfl
  rw [references_append, references_append, references_cons, references_cons, hstore, hlast, references_nil]

end Wordstack
