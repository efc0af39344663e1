import Scribe.Operator.Kind

/-!
# Precedence

How strongly each kind of node binds once it is written, and whether an operand is written in
parentheses. A looser operand always gets them. Between equals the answer depends on the parent:
some operators always group a peer, those that do not associate to the right group one on their
right, and the rest never do.
-/

namespace Scribe.Kind

/-- The precedence of what never needs parentheses. -/
def primary : Nat := 100

/-- The precedence of a kind of node; a lower one binds looser. -/
def precedence : Kind → Nat
  | .binary op =>
    match op with
    | .assign | .addAssign | .addAssignChecked | .subtractAssign | .subtractAssignChecked
    | .multiplyAssign | .multiplyAssignChecked | .divideAssign | .moduloAssign | .powerAssign
    | .andAssign | .orAssign | .exclusiveOrAssign | .leftShiftAssign | .rightShiftAssign => 1
    | .coalesce => 2
    | .orElse => 3
    | .andAlso => 4
    | .or => 5
    | .exclusiveOr => 6
    | .and => 7
    | .equal | .notEqual => 8
    | .lessThan | .lessThanOrEqual | .greaterThan | .greaterThanOrEqual => 9
    | .leftShift | .rightShift => 10
    | .add | .addChecked | .subtract | .subtractChecked => 11
    | .multiply | .multiplyChecked | .divide | .modulo => 12
    | .power => 14
    | .arrayIndex => primary
  | .unary op =>
    match op with
    | .quote => 1
    | .typeAs => 9
    | .increment | .decrement => 11
    | .convert | .convertChecked | .isFalse | .negate | .negateChecked | .not | .onesComplement
    | .preIncrementAssign | .preDecrementAssign | .unaryPlus | .unbox => 13
    | .isTrue | .arrayLength | .throw | .postIncrementAssign | .postDecrementAssign => primary
  | .shape s =>
    match s with
    | .extension => 1
    | .conditional => 2
    | .typeEqual => 8
    | .typeIs => 9
    | _ => primary

/-- Whether an operand that binds exactly as strongly as its parent is grouped. -/
def groupsPeer (parent : Kind) (isRight : Bool) : Bool :=
  match parent with
  | .shape .conditional | .binary .equal | .binary .notEqual
  | .unary .negate | .unary .negateChecked | .unary .unaryPlus => true
  | .binary .divide | .binary .modulo | .binary .leftShift | .binary .rightShift
  | .binary .power | .binary .subtract | .binary .subtractChecked => isRight
  | _ => false

/-- Whether an operand of precedence `child` is written in parentheses under `parent`. -/
def groups (parent : Kind) (child : Nat) (isRight : Bool) : Bool :=
  if child = parent.precedence then parent.groupsPeer isRight
  else child < parent.precedence

end Scribe.Kind
