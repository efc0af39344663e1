import Scribe.Operator.Token
import Scribe.Proofs.Tree.Scope
import Scribe.Script.Error

/-!
# Defects of a tree

`Tree.defects` lists what in a tree stands in the way of writing it, as the errors that a script would be
refused with. A layer has at most one defect, and it can be read off the layer alone.

`Tree.types` lists the types that a tree speaks of. They matter because an array type without dimensions has
no full name.
-/

namespace Scribe

variable {α β : Type}

/-! ## Types -/

/-- The types that are spelled with a value. -/
def Value.types : Value → List Ty
  | .enum ty _ _ | .type ty => [ty]
  | .object o => [o.ty]
  | _ => []

/-- The types of a signature. -/
def Signature.types (sig : Signature) : List Ty := sig.result :: sig.params.map (·.ty)

/-- The types of a method: of the type it belongs to, of its parts, and of its generic arguments. -/
def Method.types (m : Method) : List Ty := m.owner :: m.result :: m.params.map (·.ty) ++ m.generics

/-- The types that a late-bound operation names. -/
def LateBound.types : LateBound → List Ty
  | .convert ty => [ty]
  | _ => []

/-- The types that a layer speaks of, its own among them. -/
def Node.types (n : Node α) : List Ty :=
  n.ty :: match n with
    | .constant value _ => value.types
    | .var v => [v.ty]
    | .lambda sig _ => sig.types
    | .call _ m _ => m.types
    | .member _ m => [m.owner]
    | .block vars _ _ => vars.map (·.ty)
    | .jump _ target _ _ => [target.ty]
    | .tryCatch _ handlers _ _ _ => handlers.flatMap fun h => h.test :: h.caught.toList.map (·.ty)
    | .typeTest _ _ ty => [ty]
    | .dynamic op _ _ => op.types
    | _ => []

theorem Node.types_map (f : α → β) (n : Node α) : (n.map f).types = n.types := by
  cases n <;> simp [types, map, Node.ty, Handler.map, List.flatMap_map]

/-- The types that a tree speaks of. -/
def Tree.types (t : Tree) : List Ty := t.subtrees.flatMap (·.node.types)

/-! ## Defects -/

/-- Why no delegate fits a method. -/
def Method.obstacle? (m : Method) : Option BindingObstacle :=
  if m.params.any fun p => p.isOut || p.ty.isByRef then some .byReference
  else if m.params.length > Ty.maxDelegateParameters then some .tooManyParameters
  else none

/-- The defect of a late-bound operation on a number of arguments: there are too few of them, the operator has
no token, or the operation belongs to another language. -/
def LateBound.defect? (op : LateBound) (found : Nat) : Option ScriptError :=
  if found < op.minArguments then
    op.text?.map fun text => .malformed (.tooFewArguments text op.minArguments found)
  else match op with
    | .binaryOperation kind => if kind.token?.isNone then some (.unsupportedOperator kind) else none
    | .custom name => some (.foreignOperation name)
    | _ => none

/-- The defect of a layer. A method that a script cannot name has to fit a delegate when there is no receiver
to call it on. -/
def Node.defect? : Node α → Option ScriptError
  | .unary op none _ => if op = .throw then none else some (.malformed (.noOperand op))
  | .call none m _ => if m.isNameable then none else m.obstacle?.map (.hiddenMethod m.name)
  | .dynamic op args _ => op.defect? args.length
  | .extension _ _ => some (.unsupportedNode (.shape .extension))
  | _ => none

theorem Node.defect?_map (f : α → β) (n : Node α) : (n.map f).defect? = n.defect? := by
  cases n
  case unary op operand ty => cases operand <;> rfl
  case call receiver m args => cases receiver <;> rfl
  case dynamic op args ty => simp [Node.map, Node.defect?]
  all_goals rfl

/-- The defects of a tree. -/
def Tree.defects (t : Tree) : List ScriptError := t.subtrees.filterMap (·.node.defect?)

end Scribe
