/-
From a source text to a program and its assembly. All stages up to the program always
run, so that everything that is wrong is reported at once.
-/
import Wordstack.Assembly.Emit
import Wordstack.Code.Program
import Wordstack.Tree.Parse

namespace Wordstack

/-- What a stage has reported. -/
inductive CompileError
  | parse (e : ParseError)
  | scope (e : ScopeError)
  | code (e : CodeError)

namespace CompileError

def diagnostic : CompileError → Diagnostic
  | .parse e => e.diagnostic
  | .scope e => e.diagnostic
  | .code e => e.diagnostic

def isFatal (e : CompileError) : Bool := !e.diagnostic.isWarning

end CompileError

/-- What becomes of a source text, whatever is wrong with it. -/
structure SourceUnit where
  parsed : Parsed
  analysis : Analysis
  lowered : Lowered

namespace SourceUnit

def ofSource (source : String) : SourceUnit :=
  let parsed := parse source
  let analysis := Scope.ofItems parsed.roots
  ⟨parsed, analysis, Program.ofItems parsed.roots analysis.scope⟩

/-- Everything that was reported, stage by stage. -/
def errors (u : SourceUnit) : List CompileError :=
  u.parsed.errors.map .parse ++ u.analysis.errors.map .scope ++ u.lowered.errors.map .code

end SourceUnit

structure Compilation where
  program : Program
  assembly : String
  warnings : List CompileError

/-- The stages of a compilation, in their order. -/
def Compilation.stages : List String := ["parse", "analysis", "lowering", "codegen"]

/-- Why the text called `name` was not compiled. -/
structure CompileFailure where
  name : String
  errors : List CompileError

def CompileFailure.message (f : CompileFailure) : String := s!"Could not compile `{f.name}`"

/-- Compiles a source text, unless something is reported that is more than a warning. -/
def compile (name source : String) : Except CompileFailure Compilation :=
  let u := SourceUnit.ofSource source
  if u.errors.any CompileError.isFatal then .error ⟨name, u.errors⟩
  else
    let program := u.lowered.program
    .ok ⟨program, Assembly.text (Assembly.ofProgram program), u.errors⟩

end Wordstack
