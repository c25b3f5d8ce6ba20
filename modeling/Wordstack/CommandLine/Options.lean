/-
The arguments of the command line: an optional input path, and options that have a long
and mostly a short spelling. Arguments are read from left to right, and the first one
that asks for the version or cannot be understood decides.
-/

namespace Wordstack.CommandLine

/-- What to do with the input. -/
inductive Mode
  | compile | parse | ir | run
deriving DecidableEq

def Mode.ofText? : String → Option Mode
  | "compile" => some .compile
  | "parse" => some .parse
  | "ir" => some .ir
  | "run" => some .run
  | _ => none

/-- Options that are there or not. -/
inductive Flag
  | verbose | noAnsi | linkTime
deriving DecidableEq

/-- Options that come with a value. -/
inductive Setting
  | output | mode
deriving DecidableEq

inductive Opt
  | flag (f : Flag)
  | setting (s : Setting)
  | version
deriving DecidableEq

def Opt.ofLong? : String → Option Opt
  | "output" => some (.setting .output)
  | "mode" => some (.setting .mode)
  | "verbose" => some (.flag .verbose)
  | "no-ansi" => some (.flag .noAnsi)
  | "link-time" => some (.flag .linkTime)
  | "version" => some .version
  | _ => none

def Opt.ofShort? : Char → Option Opt
  | 'o' => some (.setting .output)
  | 'm' => some (.setting .mode)
  | 'v' => some (.flag .verbose)
  | 'V' => some .version
  | _ => none

inductive UsageError
  | unknownOption (name : String)
  | missingValue (s : Setting)
  | unneededValue (name : String)
  | badValue (value : String)
  | repeated
  | secondInput (path : String)

def UsageError.message : UsageError → String
  | .unknownOption name => s!"unexpected argument '{name}'"
  | .missingValue .output => "a value is required for '--output'"
  | .missingValue .mode => "a value is required for '--mode'"
  | .unneededValue name => s!"'{name}' takes no value"
  | .badValue value => s!"invalid value '{value}'"
  | .repeated => "an option cannot be used multiple times"
  | .secondInput path => s!"unexpected argument '{path}'"

/-! ## Arguments and their pieces -/

/-- What an argument, or a letter of one, says. -/
inductive Piece
  | flag (f : Flag)
  | set (s : Setting) (value : String)
  | version
  | input (path : String)
  | wrong (e : UsageError)

/-- The pieces of an argument. An option at its end may wait for the next argument as its value. -/
structure Pieces where
  done : List Piece := []
  waiting : Option Setting := none

/-- The name and, behind an equals sign, the value of a long option. -/
def splitValue (cs : List Char) : String × Option String :=
  let name := cs.takeWhile (· ≠ '=')
  let value := match cs.dropWhile (· ≠ '=') with
    | [] => none
    | _ :: v => some (String.ofList v)
  (String.ofList name, value)

/-- An option in its long spelling, without the dashes. -/
def longPieces (cs : List Char) : Pieces :=
  let (name, value) := splitValue cs
  match Opt.ofLong? name, value with
  | none, _ => { done := [.wrong (.unknownOption name)] }
  | some (.setting s), some v => { done := [.set s v] }
  | some (.setting s), none => { waiting := some s }
  | some _, some _ => { done := [.wrong (.unneededValue name)] }
  | some (.flag f), none => { done := [.flag f] }
  | some .version, none => { done := [.version] }

/-- Options in their short spelling, one letter each. What follows the letter of a setting is its
value, with or without an equals sign before it. -/
def shortPieces : List Char → Pieces
  | [] => {}
  | c :: cs =>
    match Opt.ofShort? c with
    | none => { done := [.wrong (.unknownOption (String.ofList ['-', c]))] }
    | some (.flag f) => let later := shortPieces cs; { later with done := .flag f :: later.done }
    | some .version => { done := [.version] }
    | some (.setting s) =>
      match cs with
      | [] => { waiting := some s }
      | '=' :: value => { done := [.set s (String.ofList value)] }
      | value => { done := [.set s (String.ofList value)] }

/-- An argument where any kind of it may stand. -/
def pieces (arg : String) : Pieces :=
  match arg.toList with
  | '-' :: '-' :: cs => longPieces cs
  | '-' :: c :: cs => shortPieces (c :: cs)
  | _ => { done := [.input arg] }

/-- Whether an argument cannot be the value of the option before it. -/
def looksLikeOption (arg : String) : Bool :=
  match arg.toList with
  | '-' :: _ :: _ => true
  | _ => false

/-- The pieces of all arguments. Everything behind `--` is an input. -/
def allPieces : Option Setting → List String → List Piece
  | some s, [] => [.wrong (.missingValue s)]
  | none, [] => []
  | some s, arg :: args =>
    if looksLikeOption arg then [.wrong (.missingValue s)] else .set s arg :: allPieces none args
  | none, arg :: args =>
    if arg = "--" then args.map .input
    else
      let p := pieces arg
      p.done ++ allPieces p.waiting args

/-! ## Requests -/

/-- What has been given so far. -/
structure Given where
  input : Option String := none
  output : Option String := none
  mode : Option Mode := none
  flags : List Flag := []

/-- Why reading the arguments stops before their end. -/
inductive Stop
  | version
  | usage (e : UsageError)

def Given.add (g : Given) : Piece → Except Stop Given
  | .version => .error .version
  | .wrong e => .error (.usage e)
  | .flag f => if f ∈ g.flags then .error (.usage .repeated) else .ok { g with flags := f :: g.flags }
  | .input path =>
    if path = "" then .error (.usage (.badValue path))
    else if g.input.isSome then .error (.usage (.secondInput path))
    else .ok { g with input := some path }
  | .set .output path =>
    if path = "" then .error (.usage (.badValue path))
    else if g.output.isSome then .error (.usage .repeated)
    else .ok { g with output := some path }
  | .set .mode text =>
    match Mode.ofText? text with
    | none => .error (.usage (.badValue text))
    | some m => if g.mode.isSome then .error (.usage .repeated) else .ok { g with mode := some m }

structure Options where
  input : String
  /-- Where the assembly goes, if not to the default place. -/
  output : Option String
  mode : Mode
  flags : List Flag

/-- What is read if no input is given. -/
def defaultInput : String := "test.slm"

def Given.options (g : Given) : Options where
  input := g.input.getD defaultInput
  output := g.output
  mode := g.mode.getD .compile
  flags := g.flags

def Options.ofArgs (args : List String) : Except Stop Options :=
  Given.options <$> (allPieces none args).foldlM Given.add {}

/-! ## Paths -/

/-- A file name with another extension. What follows the last dot is the extension, unless the dot is
the first character. -/
def withExtension (extension : String) (fileName : List Char) : List Char :=
  let stem := (fileName.reverse.dropWhile (· ≠ '.')).drop 1
  (if stem.isEmpty then fileName else stem.reverse) ++ '.' :: extension.toList

/-- Where the assembly goes: next to the input, unless another place was given. -/
def Options.outputPath (o : Options) : String :=
  match o.output with
  | some path => path
  | none =>
    let cs := o.input.toList.reverse
    let fileName := (cs.takeWhile (· ≠ '/')).reverse
    let folder := (cs.dropWhile (· ≠ '/')).reverse
    String.ofList (folder ++ withExtension "asm" fileName)

end Wordstack.CommandLine
