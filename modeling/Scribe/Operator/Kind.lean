import Scribe.Operator.Basic

/-!
# Kinds of nodes

The tag of a node. The tags of operator nodes are the operators themselves; every other shape of a
node has a tag of its own.
-/

namespace Scribe

/-- The tags of the nodes that are no operator. -/
inductive Shape where
  | constant | defaultValue | parameter | lambda | invoke | call | new | newArrayInit
  | newArrayBounds | memberAccess | memberInit | listInit | index | conditional | block | loop
  | goto | label | switch | tryCatch | typeIs | typeEqual | debugInfo | runtimeVariables
  | dynamic | extension
deriving DecidableEq, Repr

/-- The name of a tag. -/
def Shape.name : Shape → String
  | .constant => "Constant"
  | .defaultValue => "Default"
  | .parameter => "Parameter"
  | .lambda => "Lambda"
  | .invoke => "Invoke"
  | .call => "Call"
  | .new => "New"
  | .newArrayInit => "NewArrayInit"
  | .newArrayBounds => "NewArrayBounds"
  | .memberAccess => "MemberAccess"
  | .memberInit => "MemberInit"
  | .listInit => "ListInit"
  | .index => "Index"
  | .conditional => "Conditional"
  | .block => "Block"
  | .loop => "Loop"
  | .goto => "Goto"
  | .label => "Label"
  | .switch => "Switch"
  | .tryCatch => "Try"
  | .typeIs => "TypeIs"
  | .typeEqual => "TypeEqual"
  | .debugInfo => "DebugInfo"
  | .runtimeVariables => "RuntimeVariables"
  | .dynamic => "Dynamic"
  | .extension => "Extension"

/-- Every tag of a node that is no operator. -/
def Shape.all : List Shape :=
  [.constant, .defaultValue, .parameter, .lambda, .invoke, .call, .new, .newArrayInit,
   .newArrayBounds, .memberAccess, .memberInit, .listInit, .index, .conditional, .block, .loop,
   .goto, .label, .switch, .tryCatch, .typeIs, .typeEqual, .debugInfo, .runtimeVariables,
   .dynamic, .extension]

/-- The tag of a node. -/
inductive Kind where
  | binary (op : BinaryOp)
  | unary (op : UnaryOp)
  | shape (s : Shape)
deriving DecidableEq, Repr

namespace Kind

/-- The name of a tag. -/
def name : Kind → String
  | .binary op => op.name
  | .unary op => op.name
  | .shape s => s.name

/-- Every tag. -/
def all : List Kind :=
  BinaryOp.all.map .binary ++ UnaryOp.all.map .unary ++ Shape.all.map .shape

/-- The tag of a given name. -/
def ofName? (name : String) : Option Kind :=
  all.find? (·.name == name)

/-- Whether a node of this kind stores into an operand. -/
def isAssignment : Kind → Bool
  | .binary op => op.isAssignment
  | .unary op => op.isAssignment
  | .shape _ => false

/-- Whether a node of this kind compares its operands; nothing for a kind without two operands. -/
def isComparison? : Kind → Option Bool
  | .binary op => some op.isComparison
  | _ => none

end Kind

end Scribe
