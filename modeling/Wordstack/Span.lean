/-
Places in a source text and the regions between them. Offsets and columns count
bytes of the UTF-8 text; lines and columns start at one.
-/

namespace Wordstack

structure Position where
  offset : Nat := 0
  line : Nat := 1
  col : Nat := 1
deriving DecidableEq, Inhabited

namespace Position

/-- The place right after the character `c` that stands at `p`. -/
def after (p : Position) (c : Char) : Position :=
  if c = '\n' then ⟨p.offset + 1, p.line + 1, 1⟩
  else ⟨p.offset + c.utf8Size, p.line, p.col + c.utf8Size⟩

/-- The place after a run of characters that starts at `p`. -/
def advance (p : Position) (cs : List Char) : Position := cs.foldl after p

@[simp] theorem advance_nil (p : Position) : p.advance [] = p := rfl

@[simp] theorem advance_cons (p : Position) (c : Char) (cs : List Char) :
    p.advance (c :: cs) = (p.after c).advance cs := rfl

theorem advance_append (p : Position) (cs ds : List Char) :
    p.advance (cs ++ ds) = (p.advance cs).advance ds := List.foldl_append

end Position

/-- The region from `start` up to, not including, `stop`. -/
structure Span where
  start : Position
  stop : Position
deriving DecidableEq, Inhabited

namespace Span

/-- The span of code that no source text stands behind. -/
def nowhere : Span := ⟨⟨0, 0, 0⟩, ⟨0, 0, 0⟩⟩

/-- Everything from the start of `s` to the end of `t`; `s` itself if `t` ends before it. -/
def through (s t : Span) : Span := if t.stop.offset < s.stop.offset then s else ⟨s.start, t.stop⟩

/-- The smallest region that holds both `s` and `t`. -/
def cover (s t : Span) : Span := if t.start.offset < s.start.offset then t.through s else s.through t

def length (s : Span) : Nat := s.stop.offset - s.start.offset

def isEmpty (s : Span) : Bool := s.start.offset == s.stop.offset

/-- A span is shown as line and column of its start. -/
def render (s : Span) : String := s!"{s.start.line}:{s.start.col}"

end Span
end Wordstack
