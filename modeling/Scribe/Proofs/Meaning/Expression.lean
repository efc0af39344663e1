import Scribe.Proofs.Reading.Expression
import Scribe.Tree.Typing

/-!
# What expressions mean

The values of expressions over whole numbers and truth values: of trees on the one side, and of the
expressions that a reader of scripts finds on the other. Numbers have 32 bits and wrap around; a shift
uses the last five bits of its right operand. An evaluation ends in a fault when it divides by zero, and
when an operator gets operands it has no meaning for.

The two sides are said independently of each other. Trees speak of operations, scripts of signs.
-/

namespace Scribe

-- powers are those of the core library, whatever else is imported
attribute [local instance (2000)] instPowNat

/-- A value while a program runs. -/
inductive Datum where
  | int (n : Int32)
  | bool (b : Bool)
deriving DecidableEq, Repr

/-- Why an evaluation has no value. -/
inductive Fault where
  | divisionByZero
  | mistyped
deriving DecidableEq, Repr

/-- The value of an expression, or its fault. -/
abbrev Result := Except Fault Datum

/-- Applies an operation to the values of two operands, the left one first. -/
def Result.combine (f : Datum → Datum → Result) (x y : Result) : Result := do
  let a ← x
  let b ← y
  f a b

/-- Goes on with one of two results, as the value of a test says. -/
def Result.choose (x ifTrue ifFalse : Result) : Result := do
  match ← x with
  | .bool true => ifTrue
  | .bool false => ifFalse
  | _ => .error .mistyped

/-- The values of keys that have been bound to arguments; other keys are zero. -/
def bindArgs {κ : Type} [DecidableEq κ] (keys : List κ) (args : List Datum) (k : κ) : Datum :=
  ((keys.zip args).lookup k).getD (.int 0)

namespace Datum

/-- The quotient, rounded towards zero. -/
def quotient (a b : Int32) : Result := if b = 0 then .error .divisionByZero else .ok (.int (a / b))

/-- The remainder, with the sign of the dividend. -/
def modulus (a b : Int32) : Result := if b = 0 then .error .divisionByZero else .ok (.int (a % b))

end Datum

/-! ## Trees -/

/-- What an operation on two values gives. -/
def BinaryOp.apply : BinaryOp → Datum → Datum → Result
  | .add, .int a, .int b => .ok (.int (a + b))
  | .subtract, .int a, .int b => .ok (.int (a - b))
  | .multiply, .int a, .int b => .ok (.int (a * b))
  | .divide, .int a, .int b => Datum.quotient a b
  | .modulo, .int a, .int b => Datum.modulus a b
  | .leftShift, .int a, .int b => .ok (.int (a <<< b))
  | .rightShift, .int a, .int b => .ok (.int (a >>> b))
  | .and, .int a, .int b => .ok (.int (a &&& b))
  | .or, .int a, .int b => .ok (.int (a ||| b))
  | .exclusiveOr, .int a, .int b => .ok (.int (a ^^^ b))
  | .and, .bool a, .bool b => .ok (.bool (a && b))
  | .or, .bool a, .bool b => .ok (.bool (a || b))
  | .exclusiveOr, .bool a, .bool b => .ok (.bool (a ^^ b))
  | .equal, a, b => .ok (.bool (a = b))
  | .notEqual, a, b => .ok (.bool (a ≠ b))
  | .lessThan, .int a, .int b => .ok (.bool (a < b))
  | .lessThanOrEqual, .int a, .int b => .ok (.bool (a ≤ b))
  | .greaterThan, .int a, .int b => .ok (.bool (b < a))
  | .greaterThanOrEqual, .int a, .int b => .ok (.bool (b ≤ a))
  | _, _, _ => .error .mistyped

/-- What an operation gives for the results of its operands. The two that can do without their right
operand look at it only when they need it. -/
def BinaryOp.join (op : BinaryOp) (x y : Result) : Result :=
  match op with
  | .andAlso => Result.choose x y (.ok (.bool false))
  | .orElse => Result.choose x (.ok (.bool true)) y
  | op => Result.combine op.apply x y

/-- What an operation on one value gives. -/
def UnaryOp.apply : UnaryOp → Datum → Result
  | .negate, .int a => .ok (.int (-a))
  | .unaryPlus, .int a => .ok (.int a)
  | .onesComplement, .int a => .ok (.int (~~~a))
  | .not, .int a => .ok (.int (~~~a))
  | .not, .bool b => .ok (.bool !b)
  | _, _ => .error .mistyped

/-- The value of a tree, when variables have the values `ρ`. Trees that are more than expressions over
numbers and truth values have none. -/
def Tree.value (ρ : Ident → Datum) (t : Tree) : Result :=
  t.fold fun
    | .var v => .ok (ρ v.id)
    | .constant (.int n) _ => .ok (.int n)
    | .constant (.bool b) _ => .ok (.bool b)
    | .binary op left right _ => op.join left.2 right.2
    | .unary op (some operand) _ => operand.2 >>= op.apply
    | .conditional test ifTrue ifFalse _ => Result.choose test.2 ifTrue.2 ifFalse.2
    | _ => .error .mistyped

section TreeValue

variable (ρ : Ident → Datum)

theorem Tree.value_var (v : Variable) : (Tree.mk (.var v)).value ρ = .ok (ρ v.id) := by
  rw [value, fold_mk]
  rfl

theorem Tree.value_int (n : Int32) (ty : Ty) : (Tree.mk (.constant (.int n) ty)).value ρ = .ok (.int n) := by
  rw [value, fold_mk]
  rfl

theorem Tree.value_binary (op : BinaryOp) (l r : Tree) (ty : Ty) :
    (Tree.mk (.binary op l r ty)).value ρ = op.join (l.value ρ) (r.value ρ) := by
  rw [value, fold_mk]
  rfl

theorem Tree.value_unary (op : UnaryOp) (e : Tree) (ty : Ty) :
    (Tree.mk (.unary op (some e) ty)).value ρ = e.value ρ >>= op.apply := by
  rw [value, fold_mk]
  rfl

end TreeValue

/-! ## Scripts -/

namespace Reading

/-- What a sign between two values gives. -/
def InfixOp.apply : InfixOp → Datum → Datum → Result
  | .plus, .int a, .int b => .ok (.int (a + b))
  | .minus, .int a, .int b => .ok (.int (a - b))
  | .times, .int a, .int b => .ok (.int (a * b))
  | .over, .int a, .int b => Datum.quotient a b
  | .remainder, .int a, .int b => Datum.modulus a b
  | .shiftLeft, .int a, .int b => .ok (.int (a <<< b))
  | .shiftRight, .int a, .int b => .ok (.int (a >>> b))
  | .and, .int a, .int b => .ok (.int (a &&& b))
  | .or, .int a, .int b => .ok (.int (a ||| b))
  | .xor, .int a, .int b => .ok (.int (a ^^^ b))
  | .and, .bool a, .bool b => .ok (.bool (a && b))
  | .or, .bool a, .bool b => .ok (.bool (a || b))
  | .xor, .bool a, .bool b => .ok (.bool (a ^^ b))
  | .equal, a, b => .ok (.bool (a = b))
  | .unequal, a, b => .ok (.bool (a ≠ b))
  | .less, .int a, .int b => .ok (.bool (a < b))
  | .lessEqual, .int a, .int b => .ok (.bool (a ≤ b))
  | .greater, .int a, .int b => .ok (.bool (b < a))
  | .greaterEqual, .int a, .int b => .ok (.bool (b ≤ a))
  | _, _, _ => .error .mistyped

/-- What a sign gives for the results of its operands. The signs `&&` and `||` look at their right operand
only when they need it. -/
def InfixOp.join (op : InfixOp) (x y : Result) : Result :=
  match op with
  | .andAlso => Result.choose x y (.ok (.bool false))
  | .orElse => Result.choose x (.ok (.bool true)) y
  | op => Result.combine op.apply x y

/-- What a sign in front of a value gives. -/
def PrefixOp.apply : PrefixOp → Datum → Result
  | .minus, .int a => .ok (.int (-a))
  | .plus, .int a => .ok (.int a)
  | .complement, .int a => .ok (.int (~~~a))
  | .not, .bool b => .ok (.bool !b)
  | _, _ => .error .mistyped

/-- The value of an expression, when names have the values `σ`. A number that does not fit has another
type. -/
def Expr.eval (σ : String → Datum) : Expr → Result
  | .name s => .ok (σ s)
  | .number n => if n < 2 ^ (31 : Nat) then .ok (.int (Int32.ofNat n)) else .error .mistyped
  | .truth b => .ok (.bool b)
  | .grouped e => e.eval σ
  | .prefixed op e => e.eval σ >>= op.apply
  | .infixed op l r => op.join (l.eval σ) (r.eval σ)
  | .choice c a b => Result.choose (c.eval σ) (a.eval σ) (b.eval σ)

end Reading

end Scribe
