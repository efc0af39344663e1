import Scribe.Tree.Scope
import Scribe.Writing.Block

/-!
# Exceptions

A fault handler runs when an exception leaves the body, and then only. The language has no such handler:
it is written as a `finally` that looks at a flag, which is set at first and cleared at the end of the
body and before every jump out of it. A value of the body is kept in a variable until the handlers are
done.
-/

namespace Scribe.Writing

/-- Writes a handler. -/
def handler (tail : Tail) (h : Handler Piece) : Writing (Handler Tree) := do
  putLine "catch ("
  putType h.test
  let caught ← match h.caught with
    | some v => do
      put " "
      let w ← putVariable v
      pure (some w)
    | none => pure none
  put ")"
  let filter ← match h.filter with
    | some p => do
      put " when ("
      let t ← p.value
      put ")"
      pure (some t)
    | none => pure none
  let body ← h.body.bracedBody tail
  return ⟨h.test, caught, filter, body⟩

/-- Writes a body that clears its fault flag at the end. -/
def flaggedBody (p : Piece) (tail : Tail) (flag : String) : Writing Tree := do
  onFlow fun flow => { flow with faults := ⟨flag, p.tree.labels⟩ :: flow.faults }
  let t ← p.body tail
  onFlow fun flow => { flow with faults := flow.faults.drop 1 }
  putLine (flag ++ " = false;")
  return t

/-- Writes the `try` and its body. -/
def tryBody (p : Piece) (tail : Tail) (flag : Option String) : Writing Tree := do
  putLine "try"
  openBrace
  let t ← match flag with
    | some flag => flaggedBody p tail flag
    | none => p.body tail
  closeBrace
  return t

/-- Writes the `finally` of a try, with its fault handler. -/
def finallyPart (final fault : Option Piece) (flag : String) :
    Writing (Option Tree × Option Tree) := do
  if final.isNone && fault.isNone then return (none, none)
  putLine "finally"
  openBrace
  let t ← match final with
    | some p => do
      let t ← p.body .discard
      pure (some t)
    | none => pure none
  let u ← match fault with
    | some p => do
      putLine ("if (" ++ flag ++ ")")
      let t ← p.bracedBody .discard
      pure (some t)
    | none => pure none
  closeBrace
  return (t, u)

/-- Writes a try without a fault handler. -/
def plainTry (p : Piece) (handlers : List (Handler Piece)) (final : Option Piece) (ty : Ty)
    (tail : Tail) : Writing Tree := do
  let t ← tryBody p tail none
  let hs ← handlers.mapM (handler tail)
  let (f, _) ← finallyPart final none ""
  return .mk (.tryCatch t hs f none ty)

/-- Writes a try with a fault handler, whose body and handlers hand on their value by `tail`. -/
def faultTry (p : Piece) (handlers : List (Handler Piece)) (final : Option Piece) (fault : Piece)
    (ty : Ty) (tail : Tail) (flag : String) : Writing Tree := do
  putLine ("bool " ++ flag ++ " = true;")
  let t ← tryBody p tail (some flag)
  let hs ← handlers.mapM (handler tail)
  let (f, u) ← finallyPart final (some fault) flag
  return .mk (.tryCatch t hs f u ty)

/-- Writes a try. -/
def tryCatch (p : Piece) (handlers : List (Handler Piece)) (final fault : Option Piece) (ty : Ty)
    (tail : Tail) : Writing Tree := do
  let tail := tail.atType ty
  match fault with
  | none => plainTry p handlers final ty tail
  | some fault =>
    let flag ← naming (·.fresh "fault")
    match tail with
    | .result =>
      -- the result is kept until the fault handler has been passed
      let kept ← naming (·.fresh "result")
      newline
      putType ty
      put (" " ++ kept ++ ";")
      let t ← faultTry p handlers final fault ty (.assign kept) flag
      putLine ("return " ++ kept ++ ";")
      return t
    | _ => faultTry p handlers final fault ty tail flag

end Scribe.Writing
