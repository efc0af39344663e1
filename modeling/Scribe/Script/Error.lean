import Scribe.Operator.Kind
import Scribe.Ty.WellKnown

/-!
# Why a tree has no script

The causes for which writing a script stops, and how each is reported. No part of a script is given
out when writing stops.
-/

namespace Scribe

/-- Why no delegate fits a method. -/
inductive BindingObstacle where
  | byReference
  | tooManyParameters
deriving DecidableEq, Repr

/-- What stands in the way, as text. -/
def BindingObstacle.message : BindingObstacle → String
  | .byReference => "out or by-reference parameters cannot be bound to a delegate"
  | .tooManyParameters => "more than " ++ toString Ty.maxDelegateParameters ++ " parameters"

/-- What is missing in a malformed node. -/
inductive Defect where
  | noOperand (op : UnaryOp)
  | tooFewArguments (operation : String) (needed found : Nat)
deriving DecidableEq, Repr

/-- What is wrong with the tree, as text. -/
def Defect.message : Defect → String
  | .noOperand op => op.name ++ " node without an operand"
  | .tooFewArguments operation needed found =>
    operation ++ " binder needs " ++ toString needed ++ " arguments, found " ++ toString found

/-- Why a tree has no script. -/
inductive ScriptError where
  /-- Nodes of this kind cannot be written. -/
  | unsupportedNode (kind : Kind)
  /-- A late-bound operation asks for an operator without a token. -/
  | unsupportedOperator (kind : Kind)
  /-- A late-bound operation of another language. -/
  | foreignOperation (name : String)
  /-- A method that the script cannot name, and that no delegate fits either. -/
  | hiddenMethod (method : String) (obstacle : BindingObstacle)
  | malformed (defect : Defect)
  /-- An array type of rank zero where a full name is needed. -/
  | noFullName
deriving DecidableEq, Repr

/-- How the cause is reported. -/
def ScriptError.message : ScriptError → String
  | .unsupportedNode kind => "node kind " ++ kind.name ++ " has no textual translation"
  | .unsupportedOperator kind => "operator " ++ kind.name ++ " has no textual translation"
  | .foreignOperation name => "unsupported dynamic binder: " ++ name
  | .hiddenMethod method obstacle =>
    "cannot handle non-public method " ++ method ++ ": " ++ obstacle.message
  | .malformed defect => "invalid tree: " ++ defect.message
  | .noFullName => "array type of rank 0 has no full name"

end Scribe
