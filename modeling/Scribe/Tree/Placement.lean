import Scribe.Tree.Typing

/-!
# What can stand where

Which trees the language can write as expressions, and which expressions it accepts as statements.
-/

namespace Scribe

variable {α : Type}

/-- Whether the node throws. -/
def Node.isThrow : Node α → Bool
  | .unary .throw _ _ => true
  | _ => false

/-- Whether the node is a jump. -/
def Node.isJump : Node α → Bool
  | .jump _ _ _ _ => true
  | _ => false

/-- The label that the node sets. -/
def Node.labelTarget? : Node α → Option Label
  | .label target _ => some target
  | _ => none

/-- Whether the language accepts the node as a statement, for its effect. -/
def Node.isEffect : Node α → Bool
  | .call _ _ _ | .invoke _ _ _ | .new _ _ | .dynamic _ _ _ => true
  | .binary op _ _ _ => op.isAssignment
  | .unary op _ _ => op.isAssignment
  | _ => false

/-- Whether the tree is a default value that need not be written, because there is none or because it is
not handed on. -/
def Tree.isOmitted (t : Tree) (isDiscarded : Bool) : Bool :=
  match t.node with
  | .defaultOf ty => ty.isVoid || isDiscarded
  | _ => false

/-- Whether a tree can be written as an expression. A conditional can when it has a value and both of
its branches can. -/
def Tree.isExpression (t : Tree) : Bool :=
  t.fold fun
    | .block _ _ _ | .sequencePoint _ _ | .label _ _ | .loop _ _ _ | .switch _ _ _ _
    | .tryCatch _ _ _ _ _ => false
    | .conditional _ ifTrue ifFalse ty => !ty.isVoid && ifTrue.2 && ifFalse.2
    | _ => true

theorem Tree.isExpression_conditional (test ifTrue ifFalse : Tree) (ty : Ty) :
    (Tree.mk (.conditional test ifTrue ifFalse ty)).isExpression =
      (!ty.isVoid && ifTrue.isExpression && ifFalse.isExpression) := by
  rw [isExpression, fold_mk]
  rfl

end Scribe
