/-
What is known at a point of a function: the names in scope, where their values are kept,
and how much of the frame is in use.
-/
import Wordstack.Code.Error
import Wordstack.Program.StringTable
import Wordstack.Scope

namespace Wordstack

/-- Where a variable is kept, in bytes. -/
inductive Storage
  /-- Below the base of the frame. -/
  | stack (offset : Nat)
  /-- Among the globals. -/
  | static (offset : Nat)
deriving DecidableEq

/-- What a name stands for in code. -/
structure SymbolInfo where
  kind : SymbolKind
  span : Span
  storage : Option Storage := none
  /-- The type of a variable. -/
  type? : Option Ty := none
  params : Nat := 0
  returns : Nat := 0

def SymbolInfo.isArray (s : SymbolInfo) : Bool := s.type?.any Ty.isArray

def Entry.info (e : Entry) (storage : Option Storage) : SymbolInfo where
  kind := e.kind
  span := e.span
  storage := storage
  type? := e.type?
  params := (e.signature?.map (·.params.length)).getD 0
  returns := (e.signature?.map (·.returns.length)).getD 0

structure Env where
  globals : NameTable SymbolInfo
  /-- The names of the blocks around the point, the innermost first. -/
  blocks : List (NameTable SymbolInfo) := []
  /-- A name that is being declared: what it stood for before counts until its value is known. -/
  excluded : Option String := none
  /-- The bytes of the frame that are in use. -/
  depth : Nat := 0
  /-- The most bytes that were in use so far. -/
  frameSize : Nat := 0
  /-- The bytes that were in use where the innermost loop starts. -/
  loopDepth : Option Nat := none
  /-- The function around the point, and how many values it returns. -/
  function : String := ""
  returns : Nat := 0

namespace Env

/-- All that a name stands for, from the innermost block outwards. -/
def meanings (env : Env) (name : String) : List SymbolInfo :=
  env.blocks.filterMap (NameTable.get? name) ++ (env.globals.get? name).toList

/-- What a name stands for. -/
def lookup? (env : Env) (name : String) : Option SymbolInfo :=
  if env.excluded = some name then (env.meanings name).tail.head? else (env.meanings name).head?

/-- Takes `bytes` more of the frame into use. -/
def alloc (env : Env) (bytes : Nat) : Env :=
  let depth := env.depth + bytes
  { env with depth, frameSize := max env.frameSize depth }

/-- Enters a block. -/
def openBlock (env : Env) : Env := { env with blocks := [] :: env.blocks }

/-- Leaves the block that `inner` stands at the end of, and that was entered from `env`. -/
def closeBlock (env inner : Env) : Env := { env with frameSize := inner.frameSize }

end Env

/-! ## Notes -/

/-- What is collected while code is made: string literals and errors. -/
structure Notes where
  strings : StringTable := {}
  errors : List CodeError := []

abbrev Lower := StateM Notes

namespace Lower

def report (e : CodeError) : Lower Unit :=
  modify fun notes => { notes with errors := notes.errors ++ [e] }

/-- The label of a string literal. -/
def intern (text : String) : Lower String :=
  modifyGet fun notes =>
    let (label, strings) := notes.strings.intern text
    (label, { notes with strings })

end Lower

/-- Enters a name into the innermost block. A name may be declared once in a block; if it is declared
again, the later declaration counts. -/
def Env.declare (env : Env) (name : String) (info : SymbolInfo) : Lower Env := do
  match env.blocks with
  | [] => return env
  | block :: outer =>
    match block.get? name with
    | some first => Lower.report (.scope (.redefinition name info.span first.span))
    | none => pure ()
    return { env with blocks := block.set name info :: outer }

end Wordstack
