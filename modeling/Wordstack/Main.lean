/-
The command line of the program.
-/
import Wordstack.CommandLine

namespace Wordstack.CommandLine

/-- Prints an outcome; its exit code is left. -/
def Outcome.report (o : Outcome) : IO UInt32 := do
  IO.print o.stdout
  o.complaints.forM fun s => IO.eprintln s
  return o.code

end Wordstack.CommandLine

open Wordstack.CommandLine in
def main (args : List String) : IO UInt32 := do
  match Options.ofArgs args with
  | .error stop => stop.outcome.report
  | .ok o =>
    match ← (IO.FS.readFile o.input).toBaseIO with
    | .error _ => (noInput o.input).report
    | .ok source =>
      match o.process source with
      | (outcome, none) => outcome.report
      | (outcome, some assembly) =>
        match ← (IO.FS.writeFile o.outputPath assembly).toBaseIO with
        | .error _ => (notWritten o.outputPath).report
        | .ok _ => outcome.report
