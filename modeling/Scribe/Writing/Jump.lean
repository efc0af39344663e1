import Scribe.Writing.Block

/-!
# Jumps, labels and loops

A jump carries a value to its label. What becomes of the value depends on the label: it is returned,
assigned to a variable, or dropped, and then only its effect is kept.

A loop whose body is a conditional that leaves the loop when its test fails is written with that test.
-/

namespace Scribe

/-- Whether a tree does nothing but leave the loop with the label `exit`. -/
def Tree.leavesLoop (t : Tree) (exit : Option Label) : Bool :=
  match t.node with
  | .jump _ target none _ => (exit.map (·.id)) == some target.id
  | _ => false

namespace Writing

/-! ## Jumps -/

/-- Clears the flags of the bodies that a jump leaves. -/
def clearFlags : List String → Writing Unit
  | [] => return
  | flag :: flags => do
    put (flag ++ " = false;")
    newline
    clearFlags flags

/-- Clears the flags of the bodies that a jump to `target` leaves; without a target it leaves the
function. -/
def clearFaults (target : Option Label) : Writing Unit := do
  clearFlags ((← get).flow.flagsLeft (target.map (·.id)))

/-- Writes the jump itself. -/
def putJump (target : Label) : Writing Unit := do
  let (form, scopes) := Flow.resolve target.id true (← get).flow.scopes
  onFlow fun flow => { flow with scopes }
  match form with
  | .exit => put "break"
  | .again => put "continue"
  | .goto =>
    let name ← naming (·.nameLabel target)
    put ("goto " ++ name)

/-- Writes a value, or the default of a type when there is none. -/
def valueOrDefault (value : Option Piece) (ty : Ty) : Writing Tree :=
  match value with
  | some p => p.value
  | none => do
    putDefault ty
    return .defaultOf ty

/-- Writes the effect of a value that nothing takes over. -/
def effectOf (value : Option Piece) : Writing (Option Tree) :=
  match value with
  | some p =>
    if p.tree.node.isEffect then do
      let t ← p.inline
      put ";"
      newline
      return some t
    else return some p.tree
  | none => return none

/-- Writes a jump. -/
def jump (kind : JumpKind) (target : Label) (value : Option Piece) : Writing Tree := do
  match (← get).flow.takers.lookup target.id, kind with
  | some .result, _ =>
    clearFaults none
    put "return "
    let t ← valueOrDefault value target.ty
    return .jump kind target (some t)
  | some (.assign name), _ =>
    put (name ++ " = ")
    let t ← valueOrDefault value target.ty
    put ";"
    newline
    clearFaults (some target)
    putJump target
    return .jump kind target (some t)
  | _, .returnTo =>
    clearFaults none
    put "return"
    let t ← match value with
      | some p => do
        put " "
        let t ← p.value
        pure (some t)
      | none => pure none
    return .jump kind target t
  | _, _ =>
    let t ← effectOf value
    clearFaults (some target)
    putJump target
    return .jump kind target t

/-! ## Labels -/

/-- Writes a label at the end of a body. It is followed by an empty statement, or by the value that it
hands on when control falls through to it. When that value is assigned, the assignment comes first, so
that jumps keep the value they carry. -/
def finalLabel (target : Label) (value : Option Piece) (tail : Tail) : Writing Tree := do
  let name ← naming (·.nameLabel target)
  match tail.atType target.ty with
  | .discard =>
    putLine (name ++ ":")
    put ";"
    return .mk (.label target (value.map (·.tree)))
  | .result =>
    putLine (name ++ ":")
    putLine "return "
    let t ← valueOrDefault value target.ty
    put ";"
    return .mk (.label target (some t))
  | .assign taker =>
    putLine (taker ++ " = ")
    let t ← valueOrDefault value target.ty
    put ";"
    putLine (name ++ ":;")
    return .mk (.label target (some t))

/-! ## Loops -/

/-- Enters a construct that jumps refer to. -/
def enterScope (scope : JumpScope) : Writing Unit :=
  onFlow fun flow => { flow with scopes := scope :: flow.scopes }

/-- Leaves the innermost construct that jumps refer to. -/
def leaveScope : Writing Unit :=
  onFlow fun flow => { flow with scopes := flow.scopes.drop 1 }

/-- Writes a label that nothing but an empty statement follows. -/
def putLabel (target : Label) : Writing Unit := do
  let name ← naming (·.nameLabel target)
  putLine (name ++ ":;")

/-- Writes the label behind the body of a loop, if a jump needs it. -/
def putAgainLabel : Writing Unit := do
  match (← get).flow.scopes with
  | .loop _ (some target) _ true :: _ => putLabel target
  | _ => return

/-- Leaves a loop, and writes the label behind it, if a jump needs it. -/
def leaveLoop : Writing Unit := do
  let scopes := (← get).flow.scopes
  leaveScope
  match scopes with
  | .loop (some target) _ true _ :: _ => putLabel target
  | _ => return

/-- Writes a loop that goes on while a test succeeds. What it hands on when the test fails is the
default value of its label. -/
def whileLoop (branches : Branches) (ifFalse : Tree) (ty loopTy : Ty) (tail : Tail) :
    Writing Tree := do
  putLine "while ("
  let t ← branches.test
  put ")"
  openBrace
  let a ← branches.whenTrue .discard
  putAgainLabel
  closeBrace
  match tail.lead? with
  | some lead =>
    putLine lead
    putDefault loopTy
    put ";"
  | none => pure ()
  return .mk (.conditional t a ifFalse ty)

/-- Writes a loop that only a jump ends. -/
def endlessLoop (p : Piece) : Writing Tree := do
  putLine "while (true)"
  openBrace
  let t ← p.body .discard
  putAgainLabel
  closeBrace
  return t

/-- Writes a loop. -/
def loop (p : Piece) (exit again : Option Label) (tail : Tail) : Writing Tree := do
  let ty := (exit.map (·.ty)).getD .void
  let tail := tail.atType ty
  match exit with
  | some target => addTaker target tail
  | none => pure ()
  enterScope (.loop exit again false false)
  let t ← match p.tree.node, p.2.branches with
    | .conditional _ _ ifFalse bodyTy, some branches =>
      if ifFalse.leavesLoop exit then whileLoop branches ifFalse bodyTy ty tail
      else endlessLoop p
    | _, _ => endlessLoop p
  leaveLoop
  return .mk (.loop t exit again)

end Writing

end Scribe
