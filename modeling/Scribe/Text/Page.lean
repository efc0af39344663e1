import Scribe.Text.Position

/-!
# Pages

A page is a text that is being written, with a level of indentation. Blanks at the start of a line are
written only when something follows on that line, so a blank line stays empty.

A page either opens a document, and then drops a line break before its first text, or it is a part
that will be placed at a known position of a larger text.
-/

namespace Scribe.Text

/-- A text that is being written. -/
structure Page where
  text : String := ""
  /-- The position behind `text`. -/
  cursor : Position := {}
  /-- The level of indentation. -/
  level : Nat := 0
  /-- Whether the blanks of the current line are still to be written. -/
  owesIndent : Bool := false
  /-- Whether a line break before the first text is dropped. -/
  opensDocument : Bool := false
deriving DecidableEq, Repr

namespace Page

/-- The number of blanks for one level. -/
def levelWidth : Nat := 4

/-- An empty page at the start of a document. -/
def document (level : Nat) : Page := { level, opensDocument := true }

/-- An empty page whose text will be placed at `origin`. -/
def part (level : Nat) (origin : Position) : Page := { level, cursor := origin }

/-- The blanks that the current line is still owed. -/
def owed (p : Page) : Nat := if p.owesIndent then p.level * levelWidth else 0

/-- Where the next character will be written. -/
def position (p : Page) : Position := p.cursor.skip p.owed

/-- Adds text as it is. -/
def push (p : Page) (s : String) : Page :=
  { p with text := p.text ++ s, cursor := p.cursor.advance s }

/-- Writes the blanks that the current line is owed. -/
def settle (p : Page) : Page :=
  if p.owesIndent then
    { p.push (String.ofList (List.replicate p.owed ' ')) with owesIndent := false }
  else p

/-- Writes text on the current line; an empty text leaves the page as it is. -/
def write (p : Page) (s : String) : Page :=
  if s.isEmpty then p else p.settle.push s

/-- Starts a new line. -/
def newline (p : Page) : Page :=
  if p.opensDocument && p.text.isEmpty then { p with owesIndent := true }
  else { p.push "\n" with owesIndent := true }

/-- Writes text on a new line. -/
def writeLine (p : Page) (s : String) : Page := p.newline.write s

/-- The lines that follow are a level deeper. -/
def indent (p : Page) : Page := { p with level := p.level + 1 }

/-- The lines that follow are a level back, and never in front of the margin. -/
def dedent (p : Page) : Page := { p with level := p.level - 1 }

/-- Opens a brace, on the current line or on a new one, and goes a level deeper. -/
def openBrace (p : Page) (onLine : Bool) : Page :=
  (if onLine then p.write "\x7b" else p.writeLine "\x7b").indent

/-- Closes a brace on a new line, one level up. -/
def closeBrace (p : Page) : Page := p.dedent.writeLine "\x7d"

/-- Adds the text of another page. A text that starts with a line break takes over from the current
line, which then keeps no trailing blanks. -/
def append (p : Page) (s : String) : Page :=
  match s.toList with
  | [] => p
  | '\n' :: _ => { p with owesIndent := false }.push s
  | _ => p.settle.push s

end Page

end Scribe.Text
