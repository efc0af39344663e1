import Scribe.Operator.Kind

/-!
# Tokens of operators

How an operator is written: the token between two operands, or the tokens in front of and behind a
single one. Some operators have no token of their own, because they are written as a call, an index
or a cast.
-/

namespace Scribe.Kind

/-- The token between the operands. Checked and unchecked arithmetic are written alike. -/
def token? : Kind → Option String
  | .binary op =>
    match op with
    | .add | .addChecked => some "+"
    | .addAssign | .addAssignChecked => some "+="
    | .and => some "&"
    | .andAlso => some "&&"
    | .andAssign => some "&="
    | .assign => some "="
    | .coalesce => some "??"
    | .divide => some "/"
    | .divideAssign => some "/="
    | .equal => some "=="
    | .exclusiveOr => some "^"
    | .exclusiveOrAssign => some "^="
    | .greaterThan => some ">"
    | .greaterThanOrEqual => some ">="
    | .leftShift => some "<<"
    | .leftShiftAssign => some "<<="
    | .lessThan => some "<"
    | .lessThanOrEqual => some "<="
    | .modulo => some "%"
    | .moduloAssign => some "%="
    | .multiply | .multiplyChecked => some "*"
    | .multiplyAssign | .multiplyAssignChecked => some "*="
    | .notEqual => some "!="
    | .or => some "|"
    | .orAssign => some "|="
    | .orElse => some "||"
    | .rightShift => some ">>"
    | .rightShiftAssign => some ">>="
    | .subtract | .subtractChecked => some "-"
    | .subtractAssign | .subtractAssignChecked => some "-="
    | .power | .powerAssign | .arrayIndex => none
  | _ => none

/-- The token in front of a single operand. Negation of a whole number is done bit by bit. -/
def tokenBefore (kind : Kind) (integral : Bool) : String :=
  match kind with
  | .unary .isFalse => "!"
  | .unary .negate | .unary .negateChecked => "-"
  | .unary .not => if integral then "~" else "!"
  | .unary .onesComplement => "~"
  | .unary .preDecrementAssign => "--"
  | .unary .preIncrementAssign => "++"
  | .unary .unaryPlus => "+"
  | _ => ""

/-- The token behind a single operand. -/
def tokenAfter : Kind → String
  | .unary .arrayLength => ".Length"
  | .unary .decrement => " - 1"
  | .unary .increment => " + 1"
  | .unary .postDecrementAssign => "--"
  | .unary .postIncrementAssign => "++"
  | _ => ""

end Scribe.Kind
