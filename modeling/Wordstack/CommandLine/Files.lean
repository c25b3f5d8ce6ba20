/-
A directory as a value: the texts that lie in it and below it. Directories are there as
far as some text lies below them.
-/

namespace Wordstack.CommandLine

/-- The names that lead from a directory to a file. -/
abbrev Route := List String

structure Files where
  texts : List (Route × String) := []

namespace Files

def get? (fs : Files) (r : Route) : Option String := fs.texts.lookup r

/-- A text takes the place of the one that was there. -/
def set (fs : Files) (r : Route) (text : String) : Files :=
  ⟨(r, text) :: fs.texts.filter (·.1 ≠ r)⟩

def isDirectory (fs : Files) (r : Route) : Bool :=
  r.isEmpty || fs.texts.any fun (s, _) => r.isPrefixOf s && r ≠ s

/-- Goes on from a directory along the parts of a path; nothing outside of the directory can be
reached. -/
def walk (fs : Files) (place : Route) : List String → Option Route
  | [] => some place
  | part :: parts =>
    if !fs.isDirectory place then none
    else if part = "" ∨ part = "." then fs.walk place parts
    else if part = ".." then if place.isEmpty then none else fs.walk place.dropLast parts
    else fs.walk (place ++ [part]) parts

/-- Where a path leads. -/
def resolve? (fs : Files) (path : String) : Option Route :=
  if path.startsWith "/" then none else fs.walk [] (path.splitOn "/")

/-- The text of the file at a path. -/
def read? (fs : Files) (path : String) : Option String := (fs.resolve? path).bind fs.get?

/-- Writes a file. Its directory has to be there already. -/
def write? (fs : Files) (path text : String) : Option Files :=
  match fs.resolve? path with
  | none => none
  | some r => if fs.isDirectory r then none else some (fs.set r text)

/-- The texts that were not in `before`, or not as they are now. -/
def changedSince (fs before : Files) : List (Route × String) :=
  fs.texts.filter fun (r, text) => before.get? r ≠ some text

end Files
end Wordstack.CommandLine
