/-
Programs of the stack machine.
-/
import Wordstack.Function
import Wordstack.Program.Builtin
import Wordstack.Program.StringTable
import Wordstack.Text.Quoted

namespace Wordstack

structure Program where
  /-- Sorted by name, each name once. -/
  functions : List Function := []
  /-- The code that gives the globals their first values. -/
  init : Function := {}
  /-- What the slots of the globals hold before that. -/
  globals : List UInt64 := []
  strings : StringTable := {}

namespace Program

def initName : String := "<init>"

/-- Puts a function where its name belongs; it takes the place of one of the same name. -/
def insertSorted (f : Function) : List Function → List Function
  | [] => [f]
  | g :: gs =>
    if f.name < g.name then f :: g :: gs
    else if f.name = g.name then f :: gs
    else g :: insertSorted f gs

def insert (p : Program) (f : Function) : Program :=
  { p with functions := insertSorted f p.functions }

def function? (p : Program) (name : String) : Option Function :=
  p.functions.find? (·.name == name)

/-- Words as they are shown in a row. -/
def showWords (ws : List UInt64) : String :=
  "[" ++ String.intercalate ", " (ws.map toString) ++ "]"

/-- A program on lines: globals, strings, then its functions. -/
def listing (p : Program) : String :=
  let strings := p.strings.texts.zipIdx.map fun (text, i) =>
    StringTable.label i ++ ": " ++ Text.quoteString text ++ "\n"
  "globals: " ++ showWords p.globals ++ "\n" ++ String.join strings ++ "\n" ++ p.init.listing ++
    String.join (p.functions.map fun f => "\n" ++ f.listing)

end Program
end Wordstack
