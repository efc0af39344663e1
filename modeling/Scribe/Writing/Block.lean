import Scribe.Tree.Scope
import Scribe.Writing.Piece

/-!
# Statements

Writing lists of statements, blocks and conditionals.

A variable of a block is declared on a line of its own, unless its first mention is an assignment to it
at the top of the block; then it is declared there. An assignment whose value is handed on cannot
declare anything.
-/

namespace Scribe

/-- Whether a tree assigns to `v` a value that does not mention `v`. -/
def Tree.assignsFirst (t : Tree) (v : Ident) : Bool :=
  match t.node with
  | .binary .assign left right _ =>
    match left.node with
    | .var target => target.id == v && !right.mentions v
    | _ => false
  | _ => false

/-- Whether the first of the statements that mentions `v` can declare it. `handsOn` says whether the
last statement hands on its value. -/
def declaredInPlace (v : Ident) (handsOn : Bool) : List Tree → Bool
  | [] => false
  | t :: rest =>
    if t.mentions v then t.assignsFirst v && !(rest.isEmpty && handsOn)
    else declaredInPlace v handsOn rest

/-- Statements as one tree. -/
def Tree.ofStatements : List Tree → Tree
  | [t] => t
  | ts => .block [] ts

namespace Writing

/-- Lets jumps to `target` hand on their value in the way of `tail`. -/
def addTaker (target : Label) (tail : Tail) : Writing Unit := do
  if tail ≠ .discard then
    onFlow fun flow => { flow with takers := (target.id, tail) :: flow.takers }

/-- Writes a label that other statements follow. -/
def innerLabel (target : Label) (value : Option Tree) : Writing Tree := do
  let name ← naming (·.nameLabel target)
  putLine (name ++ ":")
  return .mk (.label target value)

/-- What a statement puts in front of its expression. Neither a `throw` nor a jump has a value to hand
on. -/
def leadOf (t : Tree) (tail : Tail) : String :=
  if t.node.isThrow || t.node.isJump || t.ty.isVoid then "" else tail.lead?.getD ""

/-- Writes an expression as a statement on a new line, and marks it. -/
def lineOf (p : Piece) (tail : Tail) : Writing (List Tree) := do
  newline
  let start ← page
  put (leadOf p.tree tail)
  let t ← p.inline
  put ";"
  let point ← mark (.statement (leadOf p.tree tail)) start
  return point.toList ++ [t]

/-- Writes a statement of a list. Old sequence points give way to new ones, if there are any. -/
def statement (p : Piece) (tail : Tail) (isFirst isLast : Bool) : Writing (List Tree) := do
  if p.tree.isEmpty then return []
  match p.tree.node with
  | .sequencePoint _ _ =>
    match (← read).wrapper.document with
    | none => return [p.tree]
    | some _ => return []
  | .label target value =>
    let t ← if isLast then p.write tail else innerLabel target value
    return [t]
  | _ =>
    if p.tree.isExpression then lineOf p tail
    else
      unless isFirst do newline
      let t ← p.write tail
      return [t]

/-- Writes the statements of a list one after the other; the last one hands on the value. -/
def statementsFrom (tail : Tail) (isFirst : Bool) : List Piece → Writing (List Tree)
  | [] => return []
  | p :: rest => do
    let here ← statement p (if rest.isEmpty then tail else .discard) isFirst rest.isEmpty
    let after ← statementsFrom tail false rest
    return here ++ after

/-- Writes a list of statements. A label at the end takes over the values of the jumps to it. -/
def statements (ps : List Piece) (tail : Tail) : Writing (List Tree) := do
  match ps.getLast?.bind (·.tree.node.labelTarget?) with
  | some target => addTaker target (tail.atType target.ty)
  | none => pure ()
  statementsFrom tail true ps

/-- Declares a variable of a block, unless that is left to its first assignment. -/
def declare (v : Variable) (inPlace : Bool) : Writing Variable := do
  if inPlace then postpone v
  else
    newline
    putType v.ty
    put " "
    let w ← putVariable v
    put ";"
    return w

/-- Writes a block. -/
def block (vars : List Variable) (ps : List Piece) (ty : Ty) (tail : Tail) : Writing Tree := do
  let tail := tail.atType ty
  let inPlace := fun v : Variable =>
    declaredInPlace v.id (tail ≠ .discard) (ps.map (·.tree))
  let ws ← vars.mapM fun v => declare v (inPlace v)
  unless vars.all inPlace do newline
  let ts ← statements ps tail
  return .mk (.block ws ts ty)

end Writing

namespace Piece

open Writing

/-- Writes a piece as the body of a construct in braces. -/
def body (p : Piece) (tail : Tail) : Writing Tree :=
  match p.tree.node with
  | .block _ _ _ => p.write tail
  | _ =>
    if p.tree.isEmpty then return p.tree
    else do
      let ts ← statements [p] tail
      return Tree.ofStatements ts

/-- Writes a piece as a body with its braces. -/
def bracedBody (p : Piece) (tail : Tail) : Writing Tree := do
  openBrace
  let t ← p.body tail
  closeBrace
  return t

/-- Writes the test of an `if` or a `while`, and marks it. -/
def test (p : Piece) : Writing Tree := do
  let start ← page
  let t ← p.value
  match ← mark .test start with
  | some point => return .block [] [point, t]
  | none => return t

end Piece

namespace Writing

/-- Writes a conditional as an expression. -/
def ternary (test ifTrue ifFalse : Piece) (ty : Ty) : Writing Tree := do
  let t ← test.operand (.shape .conditional)
  put " ? "
  let a ← ifTrue.operand (.shape .conditional)
  put " : "
  let b ← ifFalse.operand (.shape .conditional)
  return .mk (.conditional t a b ty)

/-- Writes what follows the first body of an `if`. A default value is left out when nothing is handed
on, and another conditional goes on with `else if`. -/
def elseBranch (p : Piece) (tail : Tail) : Writing Tree := do
  if p.tree.isOmitted (tail == .discard) then return p.tree
  match p.2.branches with
  | some branches => branches.elseIf tail
  | none =>
    putLine "else"
    p.bracedBody tail

/-- Writes a conditional as a statement; `lead` opens the line. -/
def ifStatement (lead : String) (test ifTrue ifFalse : Piece) (ty : Ty) (tail : Tail) :
    Writing Tree := do
  let tail := tail.atType ty
  putLine lead
  let t ← test.test
  put ")"
  let a ← ifTrue.bracedBody tail
  let b ← elseBranch ifFalse tail
  return .mk (.conditional t a b ty)

/-- The ways of writing a conditional. -/
def conditional (test ifTrue ifFalse : Piece) (ty : Ty) : Rendition where
  write tail :=
    if !ty.isVoid && ifTrue.tree.isExpression && ifFalse.tree.isExpression then
      ternary test ifTrue ifFalse ty
    else ifStatement "if (" test ifTrue ifFalse ty tail
  branches := some
    { test := test.test
      whenTrue := ifTrue.body
      elseIf := ifStatement "else if (" test ifTrue ifFalse ty }

end Writing

end Scribe
