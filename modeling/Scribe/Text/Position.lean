/-!
# Positions in a text

A position is a line, a column and an offset. Lines and columns start at one and count characters;
the offset counts bytes of UTF-8. `Position.advance` moves a position over a text.
-/

namespace Scribe.Text

/-- A place in a text. -/
structure Position where
  line : Nat := 1
  column : Nat := 1
  offset : Nat := 0
deriving DecidableEq, Repr

namespace Position

/-- The position behind one character. -/
def step (p : Position) (c : Char) : Position :=
  if c = '\n' then ⟨p.line + 1, 1, p.offset + c.utf8Size⟩
  else ⟨p.line, p.column + 1, p.offset + c.utf8Size⟩

/-- The position behind a text. -/
def advance (p : Position) (text : String) : Position :=
  text.toList.foldl step p

/-- The position `n` blanks further on. -/
def skip (p : Position) (n : Nat) : Position :=
  { p with column := p.column + n, offset := p.offset + n }

/-- An empty text does not move a position. -/
@[simp] theorem advance_empty (p : Position) : p.advance "" = p := rfl

/-- A position is moved over two texts one after the other. -/
@[simp] theorem advance_append (p : Position) (s t : String) :
    p.advance (s ++ t) = (p.advance s).advance t := by
  simp [advance, String.toList_append]

end Position

end Scribe.Text
