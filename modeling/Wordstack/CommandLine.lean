/-
The program as it is used from a command line: from arguments and files to an exit code,
a text to print and a file to write.
-/
import Wordstack.CommandLine.Files
import Wordstack.CommandLine.Options
import Wordstack.Compilation
import Wordstack.Machine
import Wordstack.Text.Lossy

namespace Wordstack.CommandLine

/-- What a run of the program comes to, apart from what it writes. -/
structure Outcome where
  code : UInt32
  stdout : String := ""
  /-- What there is to complain about. -/
  complaints : List String := []

def versionText : String := "solum 0.1.0\n"

/-- What the arguments alone decide. -/
def Stop.outcome : Stop → Outcome
  | .version => { code := 0, stdout := versionText }
  | .usage e => { code := 2, complaints := [e.message] }

def noInput (path : String) : Outcome :=
  { code := 1, complaints := ["No proper input file: " ++ Text.quoteString path] }

def notWritten (path : String) : Outcome :=
  { code := 1, complaints := ["Cannot write " ++ Text.quoteString path] }

/-- A diagnostic on a line. -/
def complaint (e : CompileError) : String :=
  let d := e.diagnostic
  match d.labels with
  | (_, span) :: _ => span.render ++ ": " ++ d.message
  | [] => d.message

/-- Prints the trees of a text, also of one that is not well formed. -/
def showTrees (source : String) : Outcome :=
  let parsed := parse source
  { code := if parsed.isSuccess then 0 else 1
    stdout := String.join (parsed.roots.map fun s => (s.outline .root).render)
    complaints := parsed.errors.map fun e => complaint (.parse e) }

/-- Runs `main` and prints what it writes and leaves. If the machine stops, nothing is printed. -/
def runMain (p : Program) : Outcome :=
  match (Machine.call "main").run (Machine.ofProgram p) with
  | .ok values m =>
    { code := 0
      stdout :=
        Text.ofBytesLossy m.output.toList ++ "main returned " ++ Program.showWords values ++ "\n" }
  | .error fault _ => { code := 1, complaints := [fault.message] }

/-- What becomes of the input: the outcome, and for a compilation the assembly to write. -/
def Options.process (o : Options) (source : String) : Outcome × Option String :=
  if o.mode = .parse then (showTrees source, none)
  else
    match compile o.input source with
    | .error failure =>
      ({ code := 1, complaints := failure.message :: failure.errors.map complaint }, none)
    | .ok c =>
      let (outcome, file) : Outcome × Option String :=
        match o.mode with
        | .ir => ({ code := 0, stdout := c.program.listing }, none)
        | .run => (runMain c.program, none)
        | .compile | .parse => ({ code := 0 }, some c.assembly)
      ({ outcome with complaints := c.warnings.map complaint ++ outcome.complaints }, file)

/-- A whole run in a directory, and what the directory holds afterwards. -/
def run (args : List String) (files : Files) : Outcome × Files :=
  match Options.ofArgs args with
  | .error stop => (stop.outcome, files)
  | .ok o =>
    match files.read? o.input with
    | none => (noInput o.input, files)
    | some source =>
      match o.process source with
      | (outcome, none) => (outcome, files)
      | (outcome, some assembly) =>
        match files.write? o.outputPath assembly with
        | some files => (outcome, files)
        | none => (notWritten o.outputPath, files)

end Wordstack.CommandLine
