import Scribe.Operator.Precedence
import Scribe.Tree.Basic

/-!
# Types and kinds of nodes

Every node has a static type and a kind. Most nodes carry their type; the type of a node that was
built without one follows from its parts, by the rules of the second half.
-/

namespace Scribe

namespace Node

variable {α : Type}

/-- The static type of a node. A variable that is passed by reference has the type behind the
reference; a loop has the type of the label behind its end. -/
def ty : Node α → Ty
  | .binary _ _ _ ty | .unary _ _ ty | .constant _ ty | .defaultOf ty | .invoke _ _ ty
  | .new ty _ | .newArray _ ty _ | .memberInit ty _ _ | .listInit ty _ _ | .index _ _ _ ty
  | .conditional _ _ _ ty | .block _ _ ty | .jump _ _ _ ty | .switch _ _ _ ty
  | .tryCatch _ _ _ _ ty | .dynamic _ _ ty | .extension _ ty => ty
  | .var v => v.ty.deref
  | .lambda sig _ => sig.delegate
  | .call _ method _ => method.result
  | .member _ m => m.ty
  | .loop _ exit _ => (exit.map (·.ty)).getD .void
  | .label target _ => target.ty
  | .typeTest _ _ _ => .bool
  | .sequencePoint _ _ => .void
  | .varSet _ => Ty.runtimeVariables

/-- The kind of a node. -/
def kind : Node α → Kind
  | .binary op _ _ _ => .binary op
  | .unary op _ _ => .unary op
  | .constant _ _ => .shape .constant
  | .defaultOf _ => .shape .defaultValue
  | .var _ => .shape .parameter
  | .lambda _ _ => .shape .lambda
  | .invoke _ _ _ => .shape .invoke
  | .call _ _ _ => .shape .call
  | .new _ _ => .shape .new
  | .newArray .elements _ _ => .shape .newArrayInit
  | .newArray .bounds _ _ => .shape .newArrayBounds
  | .member _ _ => .shape .memberAccess
  | .memberInit _ _ _ => .shape .memberInit
  | .listInit _ _ _ => .shape .listInit
  | .index _ _ _ _ => .shape .index
  | .conditional _ _ _ _ => .shape .conditional
  | .block _ _ _ => .shape .block
  | .loop _ _ _ => .shape .loop
  | .jump _ _ _ _ => .shape .goto
  | .label _ _ => .shape .label
  | .switch _ _ _ _ => .shape .switch
  | .tryCatch _ _ _ _ _ => .shape .tryCatch
  | .typeTest .is _ _ => .shape .typeIs
  | .typeTest .equal _ _ => .shape .typeEqual
  | .sequencePoint _ _ => .shape .debugInfo
  | .varSet _ => .shape .runtimeVariables
  | .dynamic _ _ _ => .shape .dynamic
  | .extension _ _ => .shape .extension

/-- The precedence of a node. A negative number is written with a minus sign and binds like one. -/
def precedence : Node α → Nat
  | .constant value _ =>
    if value.isNegative then Kind.precedence (.unary .negate) else Kind.primary
  | n => n.kind.precedence

end Node

namespace Tree

/-- The static type of a tree. -/
def ty (t : Tree) : Ty := t.node.ty

/-- The kind of a tree. -/
def kind (t : Tree) : Kind := t.node.kind

/-- The precedence of a tree. -/
def precedence (t : Tree) : Nat := t.node.precedence

/-- Whether the tree does nothing and has no value. -/
def isEmpty (t : Tree) : Bool :=
  match t.node with
  | .defaultOf ty => ty.isVoid
  | _ => false

end Tree

/-! ## Types that follow from the parts -/

/-- The type of an operator node, given the types of the operands. -/
def BinaryOp.resultTy (op : BinaryOp) (left right : Ty) : Ty :=
  if op.isComparison then .bool
  else match op with
    | .andAlso | .orElse => .bool
    | .arrayIndex => left.element?.getD .object
    | .coalesce => right
    | _ => left

/-- The type of an operator node, given the type of the operand. -/
def UnaryOp.resultTy (op : UnaryOp) : Option Ty → Ty
  | none => .void
  | some operand =>
    match op with
    | .arrayLength => .int
    | .throw => .void
    | _ => operand

/-- What calling a delegate gives: the last argument of `Func`, and nothing for any other type. -/
def Ty.delegateResult : Ty → Ty
  | .named head args _ =>
    if head.simpleName == "Func" then args.getLast?.getD .void else .void
  | _ => .void

namespace Tree

/-- A constant; its type is that of the value. -/
def constant (value : Value) (ty : Option Ty := none) : Tree :=
  .mk (.constant value (ty.getD value.ty))

/-- The default value of a type. -/
def defaultOf (ty : Ty) : Tree := .mk (.defaultOf ty)

/-- An operator with two operands; its type follows from theirs. -/
def binary (op : BinaryOp) (left right : Tree) (ty : Option Ty := none) : Tree :=
  .mk (.binary op left right (ty.getD (op.resultTy left.ty right.ty)))

/-- An operator with one operand; its type follows from it. -/
def unary (op : UnaryOp) (operand : Option Tree) (ty : Option Ty := none) : Tree :=
  .mk (.unary op operand (ty.getD (op.resultTy (operand.map Tree.ty))))

/-- A lambda; its result has the type of the body. -/
def lambda (id : Ident) (params : List Variable) (body : Tree) (name : Option String := none)
    (result : Option Ty := none) : Tree :=
  .mk (.lambda { id, name, params, result := result.getD body.ty } body)

/-- A call of a delegate; its type is what the delegate gives. -/
def invoke (target : Tree) (args : List Tree) (ty : Option Ty := none) : Tree :=
  .mk (.invoke target args (ty.getD target.ty.delegateResult))

/-- A new array with the given elements, or with one dimension for each length. -/
def newArray (form : ArrayForm) (element : Ty) (items : List Tree) : Tree :=
  let rank := match form with
    | .elements => 1
    | .bounds => items.length
  .mk (.newArray form (Ty.arrayOf element rank) items)

/-- An access through brackets; its type is that of the indexer, or of the array's elements. -/
def index (receiver : Tree) (indexer : Option Member) (args : List Tree)
    (ty : Option Ty := none) : Tree :=
  let inferred := match indexer with
    | some m => m.ty
    | none => receiver.ty.element?.getD .object
  .mk (.index receiver indexer args (ty.getD inferred))

/-- A conditional with both branches. -/
def conditional (test ifTrue ifFalse : Tree) (ty : Option Ty := none) : Tree :=
  .mk (.conditional test ifTrue ifFalse (ty.getD ifTrue.ty))

/-- A conditional without a value, and with nothing to do when the test fails. -/
def ifThen (test ifTrue : Tree) : Tree :=
  .mk (.conditional test ifTrue (.defaultOf .void) .void)

/-- A block; its value is that of the last statement. -/
def block (vars : List Variable) (body : List Tree) (ty : Option Ty := none) : Tree :=
  .mk (.block vars body (ty.getD ((body.getLast?.map Tree.ty).getD .void)))

/-- A jump; it has no value of its own. -/
def jump (kind : JumpKind) (target : Label) (value : Option Tree)
    (ty : Option Ty := none) : Tree :=
  .mk (.jump kind target value (ty.getD .void))

/-- A switch; it has no value. -/
def switch (value : Tree) (cases : List (Case Tree)) (fallback : Option Tree)
    (ty : Option Ty := none) : Tree :=
  .mk (.switch value cases fallback (ty.getD .void))

/-- A try; its value is that of the body. -/
def tryCatch (body : Tree) (handlers : List (Handler Tree)) (final fault : Option Tree)
    (ty : Option Ty := none) : Tree :=
  .mk (.tryCatch body handlers final fault (ty.getD body.ty))

/-- A handler; without a type it handles the exceptions of its variable's type. -/
def handler (test : Option Ty) (caught : Option Variable) (filter : Option Tree) (body : Tree) :
    Handler Tree :=
  ⟨(test.orElse fun _ => caught.map (·.ty)).getD Ty.exception, caught, filter, body⟩

/-- A late-bound operation; it can give any object. -/
def dynamic (op : LateBound) (args : List Tree) (ty : Option Ty := none) : Tree :=
  .mk (.dynamic op args (ty.getD .object))

end Tree

end Scribe
