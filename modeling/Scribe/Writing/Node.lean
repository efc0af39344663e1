import Scribe.Writing.Access
import Scribe.Writing.Constant
import Scribe.Writing.Function
import Scribe.Writing.LateBound
import Scribe.Writing.Switch
import Scribe.Writing.Try

/-!
# Writing trees

How each kind of node is written, given the pieces of its children, and with that how a tree is written.
The tree that writing gives back is the one that was written, with names for its nameless variables,
with the moved lambdas in place of the others, and with a sequence point for every marker.
-/

namespace Scribe

open Writing

/-- A rendition that is the same whatever the tail is. -/
def Rendition.ofExpression (write : Writing Tree) : Rendition := { write := fun _ => write }

/-- The ways of writing a node. -/
def Node.rendition : Node Piece → Rendition
  | .binary op left right ty => .ofExpression (binaryOperation op left right ty)
  | .unary op operand ty => .ofExpression (unaryOperation op operand ty)
  | .constant value ty => .ofExpression do
    putValue value
    return .mk (.constant value ty)
  | .defaultOf ty => .ofExpression do
    putDefault ty
    return .defaultOf ty
  | .var v => .ofExpression do
    let w ← putVariable v
    return .mk (.var w)
  | .lambda sig body => Writing.lambda sig body
  | .invoke target args ty => .ofExpression (invocation target args ty)
  | .call receiver m args => .ofExpression (Writing.call receiver m args)
  | .new ty args => .ofExpression do
    let ts ← creation ty args
    return .mk (.new ty ts)
  | .newArray form ty items => .ofExpression (arrayCreation form ty items)
  | .member receiver m => .ofExpression do
    let r ← memberAccess receiver m.owner m.name
    return .mk (.member r m)
  | .memberInit ty args bs => .ofExpression (Writing.memberInit ty args bs)
  | .listInit ty args inits => .ofExpression (Writing.listInit ty args inits)
  | .index receiver indexer args ty => .ofExpression (indexAccess receiver indexer args ty)
  | .conditional test ifTrue ifFalse ty => Writing.conditional test ifTrue ifFalse ty
  | .block vars body ty => { write := Writing.block vars body ty }
  | .loop body exit again => { write := Writing.loop body exit again }
  | .jump kind target value _ => .ofExpression (Writing.jump kind target value)
  | .label target value => { write := finalLabel target value }
  | .switch value cases fallback ty => { write := Writing.switch value cases fallback ty }
  | .tryCatch body handlers final fault ty =>
    { write := Writing.tryCatch body handlers final fault ty }
  | .typeTest test operand ty => .ofExpression (Writing.typeTest test operand ty)
  | .sequencePoint document span => .ofExpression do
    return .mk (.sequencePoint document span)
  | .varSet set => .ofExpression do
    let name ← field (.varSet set) Ty.runtimeVariables "RuntimeVariables"
    put name
    return .mk (.varSet set)
  | .dynamic op args ty => .ofExpression (Writing.dynamic op args ty)
  | .extension _ _ => .ofExpression (throw (.unsupportedNode (.shape .extension)))

namespace Tree

/-- The ways of writing a tree. -/
def rendition (t : Tree) : Rendition := t.fold Node.rendition

/-- A tree as a piece. -/
def piece (t : Tree) : Piece := (t, t.rendition)

/-- The piece of a tree is made from the pieces of its children. -/
theorem piece_mk (n : Node Tree) : (Tree.mk n).piece = (.mk n, (n.map piece).rendition) := by
  rw [piece, rendition, fold_mk]
  rfl

/-- Writes a tree as a whole. A lambda becomes the entry method. -/
def writeRoot (t : Tree) : Writing Tree :=
  match t.node with
  | .lambda sig body => entryMethod sig body.piece
  | _ => t.piece.inline

end Tree

end Scribe
