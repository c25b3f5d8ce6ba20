/-
The points of a text, and what is known at each of them: the functions in scope take and
leave what the program says, and the variables of blocks lie in the frame, side by side.
-/
import Wordstack.Proofs.Correctness
import Wordstack.Proofs.Scoping

namespace Wordstack

open Lower

/-- What a text knows about its globals. -/
def GlobalContext.ofSource (source : String) : GlobalContext :=
  .ofItems (parse source).roots (Scope.ofItems (parse source).roots).scope

namespace Env

/-- What may be known in the body of a function of a text: behind its parameters, in blocks and loops, and behind statements
that nothing is wrong with. -/
inductive Inside (source : String) : Env → Prop
  | params (name : String) {signature : Signature} {ty : TypeExpr} (hsig : signature.WrittenAs ty) {notes : Notes}
    (ha : (lowerParams (.ofFunction (GlobalContext.ofSource source).env.globals name signature.returns.length)
      (signature.params.zip ty.paramTokens) notes).2.Accepted) :
    Inside source (lowerParams (.ofFunction (GlobalContext.ofSource source).env.globals name signature.returns.length)
      (signature.params.zip ty.paramTokens) notes).1.1
  | block {env : Env} (h : env.Inside source) : env.openBlock.Inside source
  | loop {env : Env} (h : env.Inside source) : Inside source { env with loopDepth := some env.depth }
  | behind {env : Env} (h : env.Inside source) {s : Stmt} (hs : s.Whole) {notes : Notes}
    (ha : (s.lower env notes).2.Accepted) : (s.lower env notes).1.1.Inside source

/-- What may be known where an expression of a text stands: in the first value of a global, in the body of a function, or in
the first value of one of its variables. -/
inductive Occurs (source : String) : Env → Prop
  | globals : (GlobalContext.ofSource source).env.Occurs source
  | global {root offset : Nat} {name : Token}
    (h : (GlobalContext.ofSource source).layout.offsetFor? (GlobalContext.ofSource source).scope root name = some offset) :
    Occurs source { (GlobalContext.ofSource source).env with excluded := some name.text }
  | inside {env : Env} (h : env.Inside source) : env.Occurs source
  | value {env : Env} (h : env.Inside source) (name : Token) {ty : TypeExpr} (ht : ty.Whole) {notes : Notes}
    (ha : (declareTyped env name ty notes).2.Accepted) :
    Occurs source { (declareTyped env name ty notes).1.1 with excluded := some name.text }

variable {source : String} {env : Env}

section

variable (hs : ∀ p ∈ (GlobalContext.ofSource source).scope, p.2.OK (parse source).roots p.1)

include hs

theorem Inside.ready (h : env.Inside source) :
    ∃ returns loop, env.Ready (GlobalContext.ofSource source).scope.arities returns loop := by
  induction h with
  | params name hsig ha =>
    exact ⟨_, _, (((ensures_height_params ..).clean _ trivial ha).2 ((globalsOK_symbols hs _).ready_ofFunction ..)).1⟩
  | block _ ih =>
    obtain ⟨returns, loop, ih⟩ := ih
    exact ⟨_, _, ih.openBlock⟩
  | loop _ ih =>
    obtain ⟨returns, loop, ih⟩ := ih
    exact ⟨_, _, ih.inLoop⟩
  | behind _ hw ha ih =>
    obtain ⟨returns, loop, ih⟩ := ih
    exact ⟨_, _, (((hw.accepted_coded _).clean _ trivial ha).2.leadsTo.balances ih).1⟩

/-- The functions that can be called where an expression stands take and leave what the program says. -/
theorem Occurs.aritiesOK (h : env.Occurs source) : env.AritiesOK (GlobalContext.ofSource source).scope.arities := by
  cases h with
  | globals => exact Env.aritiesOK (globalsOK_symbols hs _) (fun _ h => by cases h) fun _ h => by cases h
  | global h => exact aritiesOK_hiding hs h
  | inside h =>
    obtain ⟨returns, loop, h⟩ := h.ready hs
    exact h.aritiesOK
  | value h name ht ha =>
    obtain ⟨returns, loop, h⟩ := h.ready hs
    obtain ⟨t, -, hr, -⟩ := ((accepted_declareTyped _ name ht).clean _ trivial ha).2
    rw [hr]
    exact h.hideDeclared name.text name.span t

end

end Env

theorem arities_of_compile {file source : String} {c : Compilation} (h : compile file source = .ok c) :
    (∀ p ∈ (GlobalContext.ofSource source).scope, p.2.OK (parse source).roots p.1) ∧
      c.program.arities = (GlobalContext.ofSource source).scope.arities := by
  obtain ⟨hprogram, hparse, hscope, hcode⟩ := of_compile h
  have hs := entries_ok (whole_of_parse hparse) hscope
  exact ⟨hs, hprogram ▸ arities_ofItems (whole_of_parse hparse) hs hcode⟩

end Wordstack
