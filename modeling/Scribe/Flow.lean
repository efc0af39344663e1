import Scribe.Tree.Basic

/-!
# The flow of control around a statement

What is known, while a statement is written, of the constructs around it: how its value is handed on,
where `break` and `continue` lead, which fault flags a jump has to clear, and which labels take over a
value. All of this ends at the border of a function.
-/

namespace Scribe

/-- How the last statement of a body hands on its value. -/
inductive Tail where
  /-- Not at all. -/
  | discard
  /-- As the result of the function. -/
  | result
  /-- By assignment to a variable. -/
  | assign (name : String)
deriving DecidableEq, Repr

namespace Tail

/-- The tail of a construct of type `ty`: one without a value hands nothing on. -/
def atType (tail : Tail) (ty : Ty) : Tail := if ty.isVoid then .discard else tail

/-- What is written in front of the value. -/
def lead? : Tail → Option String
  | .discard => none
  | .result => some "return "
  | .assign name => some (name ++ " = ")

end Tail

/-- A construct that `break` and `continue` refer to. -/
inductive JumpScope where
  /-- A loop, with what is known so far of the jumps to its labels from inside other constructs. -/
  | loop (exit again : Option Label) (exitByGoto againByGoto : Bool)
  | switch

/-- The body of a try with a fault handler. A jump that leaves the body clears the flag. -/
structure FaultScope where
  flag : String
  /-- The labels inside the body. -/
  labels : List Ident

/-- What surrounds a statement inside its function, the innermost first. -/
structure Flow where
  scopes : List JumpScope := []
  faults : List FaultScope := []
  /-- The labels that take over a value, and how jumps to them hand it on. -/
  takers : List (Ident × Tail) := []

/-- How a jump is written. -/
inductive JumpForm where
  /-- `break`, to behind the innermost construct. -/
  | exit
  /-- `continue`, with the next round of the innermost loop. -/
  | again
  /-- `goto`, with a label. -/
  | goto
deriving DecidableEq, Repr

namespace Flow

/-- How a jump to `target` is written. A jump to a label of the innermost construct needs no label; one
to a label of a loop further out does, and the loop takes note of that. -/
def resolve (target : Ident) (innermost : Bool) : List JumpScope → JumpForm × List JumpScope
  | [] => (.goto, [])
  | .switch :: outer =>
    let (form, outer) := resolve target false outer
    (form, .switch :: outer)
  | .loop exit again exitByGoto againByGoto :: outer =>
    if (exit.map (·.id)) == some target then
      if innermost then (.exit, .loop exit again exitByGoto againByGoto :: outer)
      else (.goto, .loop exit again true againByGoto :: outer)
    else if (again.map (·.id)) == some target then
      if innermost then (.again, .loop exit again exitByGoto againByGoto :: outer)
      else (.goto, .loop exit again exitByGoto true :: outer)
    else
      let (form, outer) := resolve target false outer
      (form, .loop exit again exitByGoto againByGoto :: outer)

/-- The flags of the bodies that a jump leaves, the innermost first: up to the first body that holds
the target, and all of them when the jump leaves the function. -/
def flagsLeft (flow : Flow) (target : Option Ident) : List String :=
  (flow.faults.takeWhile fun scope =>
    match target with
    | some label => !scope.labels.contains label
    | none => true).map (·.flag)

end Flow

end Scribe
