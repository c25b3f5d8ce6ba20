/-
Pieces of code. Jumps are relative, so a piece means the same wherever it is put, and
larger pieces are made by putting smaller ones in a row. The only thing that a piece can
leave open is where the loop around it starts and ends.
-/
import Wordstack.Function
import Wordstack.Tree

namespace Wordstack

inductive Step
  | command (c : Command)
  /-- A jump out of the innermost loop, or back to its start. -/
  | pending (exit : LoopExit) (span : Span)

abbrev Code := List Step

namespace Code

def ofCommands (cs : List Command) : Code := cs.map .command

/-- The body of a loop with its open jumps filled in. The loop is `total` long, and the body starts at
index `first` of it. -/
def settle (total first : Nat) : Code → Code
  | [] => []
  | .command c :: steps => .command c :: settle total (first + 1) steps
  | .pending exit span :: steps =>
    let target := match exit with
      | .leave => total
      | .again => 0
    .command { op := .jump, operand := .signed (Function.jumpOffset first target), span } ::
      settle total (first + 1) steps

/-- The commands of a piece of code that stands in no loop. -/
def commands (code : Code) : List Command :=
  code.map fun
    | .command c => c
    | .pending _ span => { op := .jump, operand := .signed 0, span }

/-- The second piece is executed if the first one leaves a value other than zero. -/
def ifThen (span : Span) (condition : List Command) (yes : Code) : Code :=
  ofCommands (condition ++ [{ op := .jumpIfNot, operand := .signed yes.length, span }]) ++ yes

def ifElse (span : Span) (condition : List Command) (yes no : Code) : Code :=
  ofCommands (condition ++ [{ op := .jumpIfNot, operand := .signed (yes.length + 1), span }]) ++
    yes ++ ofCommands [{ op := .jump, operand := .signed no.length, span }] ++ no

def loop (span : Span) (condition : List Command) (body : Code) : Code :=
  let total := condition.length + 1 + body.length + 1
  ofCommands
      (condition ++ [{ op := .jumpIfNot, operand := .signed (body.length + 1), span }]) ++
    settle total (condition.length + 1) body ++
    ofCommands [{ op := .jump, operand := .signed (-total), span }]

end Code
end Wordstack
