import Scribe.Text.Excerpt
import Scribe.Text.Page
import Scribe.Tree.Basic

/-!
# Markers

A marker says which part of a script belongs to a statement or a test: a range of lines and columns,
and the byte offset where it starts. `Marker.slice?` cuts that part out of a text again.

A passage is a statement or a test while the script is being written: the page in front of it and the
page behind it. The marker of a passage follows from the two positions.
-/

namespace Scribe

/-- The place of a statement or a test in a script. -/
structure Marker where
  span : Span
  /-- The byte offset of the start. -/
  offset : Nat
deriving DecidableEq, Repr

namespace Marker

/-- The marker of what lies between two positions. -/
def between (start stop : Text.Position) : Marker :=
  ⟨⟨start.line, start.column, stop.line, stop.column⟩, start.offset⟩

/-- The text that the marker covers. -/
def slice? (m : Marker) (script : String) : Option String := do
  let cs := script.toList
  let stop ← Text.byteOffset? cs m.span.endLine m.span.endColumn
  let slice ← Text.excerpt? cs m.offset stop
  return String.ofList slice

end Marker

/-- What is marked. -/
inductive Passage.Form where
  /-- A statement, with what it puts in front of its expression. -/
  | statement (lead : String)
  /-- The test of an `if` or a `while`. -/
  | test
deriving DecidableEq, Repr

/-- A statement or a test that has been written. -/
structure Passage where
  form : Passage.Form
  /-- The page as it was in front of the passage. -/
  start : Text.Page
  /-- The page as it was behind the passage. -/
  stop : Text.Page
deriving DecidableEq, Repr

/-- The marker of a passage. -/
def Passage.marker (g : Passage) : Marker := .between g.start.position g.stop.position

end Scribe
