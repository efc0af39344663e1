import Scribe.Writing.Jump

/-!
# Switches

A case ends with a `break`, unless its value is returned. A `break` inside a switch leaves the switch,
so a jump out of a loop around it needs a label.
-/

namespace Scribe.Writing

/-- Writes the body of a case. -/
def caseBody (p : Piece) (tail : Tail) : Writing Tree := do
  indent
  let t ← p.body tail
  if tail ≠ .result then putLine "break;"
  dedent
  return t

/-- Writes a case. -/
def switchCase (tail : Tail) (c : Case Piece) : Writing (Case Tree) := do
  let tests ← c.tests.mapM fun p => do
    putLine "case "
    let t ← p.value
    put ":"
    return t
  let body ← caseBody c.body tail
  return ⟨tests, body⟩

/-- Writes a switch. -/
def switch (value : Piece) (cases : List (Case Piece)) (fallback : Option Piece) (ty : Ty)
    (tail : Tail) : Writing Tree := do
  let tail := tail.atType ty
  putLine "switch ("
  let v ← value.value
  put ")"
  openBrace
  enterScope .switch
  let cs ← cases.mapM (switchCase tail)
  let d ← match fallback with
    | some p => do
      putLine "default:"
      let t ← caseBody p tail
      pure (some t)
    | none => pure none
  leaveScope
  closeBrace
  return .mk (.switch v cs d ty)

end Scribe.Writing
