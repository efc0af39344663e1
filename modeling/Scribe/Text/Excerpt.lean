/-!
# Excerpts

Cutting a text at byte offsets, and finding the byte offset of a line and column. A cut inside a
character or behind the end of the text fails.
-/

namespace Scribe.Text

-- sums begin with the zero of the core library, whatever else is imported
attribute [local instance (2000)] Zero.ofOfNat0

/-- What is left behind the first `n` bytes. -/
def dropBytes? : Nat → List Char → Option (List Char)
  | 0, cs => some cs
  | _ + 1, [] => none
  | n + 1, c :: cs =>
    if c.utf8Size ≤ n + 1 then dropBytes? (n + 1 - c.utf8Size) cs else none

/-- The first `n` bytes. -/
def takeBytes? : Nat → List Char → Option (List Char)
  | 0, _ => some []
  | _ + 1, [] => none
  | n + 1, c :: cs =>
    if c.utf8Size ≤ n + 1 then (takeBytes? (n + 1 - c.utf8Size) cs).map (c :: ·) else none

/-- The text between two byte offsets. -/
def excerpt? (cs : List Char) (start stop : Nat) : Option (List Char) :=
  if start ≤ stop then (dropBytes? start cs).bind (takeBytes? (stop - start)) else none

/-- The number of bytes of a text. -/
def byteCount (cs : List Char) : Nat := (cs.map Char.utf8Size).sum

/-- What is left behind the next line break. -/
def nextLine? : List Char → Option (List Char)
  | [] => none
  | c :: cs => if c = '\n' then some cs else nextLine? cs

/-- What is left behind the next `n` line breaks. -/
def dropLines? : Nat → List Char → Option (List Char)
  | 0, cs => some cs
  | n + 1, cs => (nextLine? cs).bind (dropLines? n)

/-- The byte offset of a line and a column, both counted from one. The column may run on past the end
of the line, but not past the end of the text. -/
def byteOffset? (cs : List Char) (line column : Nat) : Option Nat :=
  match dropLines? (line - 1) cs, column with
  | none, _ | _, 0 => none
  | some rest, ahead + 1 =>
    if ahead ≤ rest.length then
      some (byteCount cs - byteCount rest + byteCount (rest.take ahead))
    else none

end Scribe.Text
