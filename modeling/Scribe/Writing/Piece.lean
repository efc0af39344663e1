import Scribe.Draft
import Scribe.Tree.Placement

/-!
# Pieces

A piece is a tree together with the ways of writing it. A node is written from the pieces of its
children, so that what to do with a child (group it, wrap it in a closure, put it on a line) is said
here once, without recursion.

`Rendition.write` is the main way. It takes a tail, because a statement may have to hand on its value.
An expression is written with the tail that hands nothing on. Two kinds of nodes can also be written in
another way, which depends on the node around them.
-/

namespace Scribe

open Writing

/-- How the parts of a conditional are written where it is no expression. -/
structure Branches where
  /-- Writes the test, with its marker. -/
  test : Writing Tree
  /-- Writes the body for the case that the test succeeds. -/
  whenTrue : Tail → Writing Tree
  /-- Writes the conditional behind the `else` of another one. -/
  elseIf : Tail → Writing Tree

/-- The ways of writing a tree. -/
structure Rendition where
  /-- Writes the tree in statement position; with `Tail.discard` also in expression position. -/
  write : Tail → Writing Tree
  /-- The parts of a conditional. -/
  branches : Option Branches := none
  /-- Writes a lambda that is quoted. -/
  quoted : Option (Writing Tree) := none

/-- A tree and the ways of writing it. -/
abbrev Piece := Tree × Rendition

namespace Piece

/-- The tree of a piece. -/
abbrev tree (p : Piece) : Tree := p.1

/-- Writes a piece in statement position. -/
def write (p : Piece) (tail : Tail) : Writing Tree := p.2.write tail

/-- Writes a piece in expression position. -/
def inline (p : Piece) : Writing Tree := p.write .discard

/-- Writes a piece that is no expression where an expression is needed: as a closure that is called at
once. -/
def closure (p : Piece) : Writing Tree := do
  put "(new "
  putType (Ty.delegate [] p.tree.ty)
  put "(() => "
  openBraceHere
  let t ← inFunction (p.write (Tail.atType .result p.tree.ty))
  closeBrace
  put "))()"
  return t

/-- Writes a piece where brackets or commas delimit it. -/
def value (p : Piece) : Writing Tree :=
  if p.tree.isExpression then p.inline else p.closure

/-- Writes a piece between parentheses. -/
def inParens (p : Piece) : Writing Tree := do
  put "("
  let t ← p.value
  put ")"
  return t

/-- Writes an operand of a `parent` node, in parentheses where they are needed. -/
def operand (p : Piece) (parent : Kind) (isRight : Bool := false) : Writing Tree :=
  if p.tree.isExpression && parent.groups p.tree.precedence isRight then p.inParens else p.value

end Piece

/-- Writes values between two brackets. -/
def Writing.arguments (left right : String) (args : List Piece) : Writing (List Tree) :=
  bracketed left right (args.map Piece.value)

end Scribe
