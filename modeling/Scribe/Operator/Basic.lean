/-!
# Operators

The operators of nodes with two operands and with one. An operator knows its name; how it is written
and how strongly it binds is in `Scribe.Operator.Token` and `Scribe.Operator.Precedence`.
-/

namespace Scribe

/-- The operators with two operands. -/
inductive BinaryOp where
  | add | addChecked | subtract | subtractChecked | multiply | multiplyChecked | divide | modulo
  | power | and | or | exclusiveOr | andAlso | orElse | leftShift | rightShift | equal | notEqual
  | lessThan | lessThanOrEqual | greaterThan | greaterThanOrEqual | coalesce | arrayIndex
  | assign | addAssign | addAssignChecked | subtractAssign | subtractAssignChecked
  | multiplyAssign | multiplyAssignChecked | divideAssign | moduloAssign | powerAssign
  | andAssign | orAssign | exclusiveOrAssign | leftShiftAssign | rightShiftAssign
deriving DecidableEq, Repr

/-- The operators with one operand. -/
inductive UnaryOp where
  | negate | negateChecked | unaryPlus | not | onesComplement | isTrue | isFalse | convert
  | convertChecked | typeAs | arrayLength | quote | throw | unbox | increment | decrement
  | preIncrementAssign | preDecrementAssign | postIncrementAssign | postDecrementAssign
deriving DecidableEq, Repr

/-- The name of an operator with two operands. -/
def BinaryOp.name : BinaryOp → String
  | .add => "Add"
  | .addChecked => "AddChecked"
  | .subtract => "Subtract"
  | .subtractChecked => "SubtractChecked"
  | .multiply => "Multiply"
  | .multiplyChecked => "MultiplyChecked"
  | .divide => "Divide"
  | .modulo => "Modulo"
  | .power => "Power"
  | .and => "And"
  | .or => "Or"
  | .exclusiveOr => "ExclusiveOr"
  | .andAlso => "AndAlso"
  | .orElse => "OrElse"
  | .leftShift => "LeftShift"
  | .rightShift => "RightShift"
  | .equal => "Equal"
  | .notEqual => "NotEqual"
  | .lessThan => "LessThan"
  | .lessThanOrEqual => "LessThanOrEqual"
  | .greaterThan => "GreaterThan"
  | .greaterThanOrEqual => "GreaterThanOrEqual"
  | .coalesce => "Coalesce"
  | .arrayIndex => "ArrayIndex"
  | .assign => "Assign"
  | .addAssign => "AddAssign"
  | .addAssignChecked => "AddAssignChecked"
  | .subtractAssign => "SubtractAssign"
  | .subtractAssignChecked => "SubtractAssignChecked"
  | .multiplyAssign => "MultiplyAssign"
  | .multiplyAssignChecked => "MultiplyAssignChecked"
  | .divideAssign => "DivideAssign"
  | .moduloAssign => "ModuloAssign"
  | .powerAssign => "PowerAssign"
  | .andAssign => "AndAssign"
  | .orAssign => "OrAssign"
  | .exclusiveOrAssign => "ExclusiveOrAssign"
  | .leftShiftAssign => "LeftShiftAssign"
  | .rightShiftAssign => "RightShiftAssign"

/-- The name of an operator with one operand. -/
def UnaryOp.name : UnaryOp → String
  | .negate => "Negate"
  | .negateChecked => "NegateChecked"
  | .unaryPlus => "UnaryPlus"
  | .not => "Not"
  | .onesComplement => "OnesComplement"
  | .isTrue => "IsTrue"
  | .isFalse => "IsFalse"
  | .convert => "Convert"
  | .convertChecked => "ConvertChecked"
  | .typeAs => "TypeAs"
  | .arrayLength => "ArrayLength"
  | .quote => "Quote"
  | .throw => "Throw"
  | .unbox => "Unbox"
  | .increment => "Increment"
  | .decrement => "Decrement"
  | .preIncrementAssign => "PreIncrementAssign"
  | .preDecrementAssign => "PreDecrementAssign"
  | .postIncrementAssign => "PostIncrementAssign"
  | .postDecrementAssign => "PostDecrementAssign"

/-- Every operator with two operands. -/
def BinaryOp.all : List BinaryOp :=
  [.add, .addChecked, .subtract, .subtractChecked, .multiply, .multiplyChecked, .divide, .modulo,
   .power, .and, .or, .exclusiveOr, .andAlso, .orElse, .leftShift, .rightShift, .equal,
   .notEqual, .lessThan, .lessThanOrEqual, .greaterThan, .greaterThanOrEqual, .coalesce,
   .arrayIndex, .assign, .addAssign, .addAssignChecked, .subtractAssign, .subtractAssignChecked,
   .multiplyAssign, .multiplyAssignChecked, .divideAssign, .moduloAssign, .powerAssign,
   .andAssign, .orAssign, .exclusiveOrAssign, .leftShiftAssign, .rightShiftAssign]

/-- Every operator with one operand. -/
def UnaryOp.all : List UnaryOp :=
  [.negate, .negateChecked, .unaryPlus, .not, .onesComplement, .isTrue, .isFalse, .convert,
   .convertChecked, .typeAs, .arrayLength, .quote, .throw, .unbox, .increment, .decrement,
   .preIncrementAssign, .preDecrementAssign, .postIncrementAssign, .postDecrementAssign]

/-- Whether the result is a truth value whatever the operands are. -/
def BinaryOp.isComparison : BinaryOp → Bool
  | .equal | .notEqual | .lessThan | .lessThanOrEqual | .greaterThan | .greaterThanOrEqual => true
  | _ => false

/-- Whether the operator stores into its left operand. -/
def BinaryOp.isAssignment : BinaryOp → Bool
  | .assign | .addAssign | .addAssignChecked | .subtractAssign | .subtractAssignChecked
  | .multiplyAssign | .multiplyAssignChecked | .divideAssign | .moduloAssign | .powerAssign
  | .andAssign | .orAssign | .exclusiveOrAssign | .leftShiftAssign | .rightShiftAssign => true
  | _ => false

/-- Whether the operator stores into its operand. -/
def UnaryOp.isAssignment : UnaryOp → Bool
  | .preIncrementAssign | .preDecrementAssign | .postIncrementAssign | .postDecrementAssign => true
  | _ => false

end Scribe
