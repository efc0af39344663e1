import Scribe.Operator.Token
import Scribe.Writing.Piece

/-!
# Operators

Writing operator nodes and type tests.
-/

namespace Scribe.Writing

/-- The token of an operator, or the error that there is none. -/
def tokenOf (kind : Kind) : Writing String :=
  match kind.token? with
  | some token => return token
  | none => throw (.unsupportedOperator kind)

/-- Writes two operands with the token of the operator between them. -/
def infixed (kind : Kind) (left right : Piece) : Writing (Tree × Tree) := do
  let token ← tokenOf kind
  let l ← left.operand kind
  put (" " ++ token ++ " ")
  let r ← right.operand kind true
  return (l, r)

/-- Writes a power, as a call. -/
def powerCall (left right : Piece) : Writing (Tree × Tree) := do
  putType Ty.math
  put ".Pow("
  let l ← left.value
  put ", "
  let r ← right.value
  put ")"
  return (l, r)

/-- Writes an operator with two operands. -/
def binaryOperation (op : BinaryOp) (left right : Piece) (ty : Ty) : Writing Tree := do
  let (l, r) ← match op with
    | .arrayIndex => do
      let l ← left.operand (.binary op)
      put "["
      let r ← right.value
      put "]"
      pure (l, r)
    | .power => powerCall left right
    | .powerAssign => do
      -- the target is written once to be assigned and once to be read
      let _ ← left.operand (.binary op)
      put " = "
      powerCall left right
    | _ => infixed (.binary op) left right
  return .mk (.binary op l r ty)

/-- Writes an operand with the tokens of its operator. -/
def affixed (kind : Kind) (p : Piece) : Writing Tree := do
  put (kind.tokenBefore p.tree.ty.isIntegral)
  let t ← p.operand kind
  put kind.tokenAfter
  return t

/-- Writes what stands in front of an operand and is no token: a cast, or `throw`. -/
def putOpening (op : UnaryOp) (ty : Ty) : Writing Unit :=
  match op with
  | .convert | .convertChecked | .unbox => do
    put "("
    putType ty
    put ")"
  | .throw => put "throw "
  | _ => pure ()

/-- Writes an operator with one operand. Only a `throw` may go without. A quoted lambda is written in
its own way. -/
def unaryOperation (op : UnaryOp) (operand : Option Piece) (ty : Ty) : Writing Tree := do
  match op, operand with
  | .throw, none =>
    put "throw"
    return .mk (.unary op none ty)
  | _, none => throw (.malformed (.noOperand op))
  | _, some p =>
    putOpening op ty
    let t ← match op, p.2.quoted with
      | .quote, some quoted => quoted
      | _, _ => affixed (.unary op) p
    if op = .typeAs then
      put " as "
      putType ty
    return .mk (.unary op (some t) ty)

/-- Writes a type test. The test for exactly one type asks the value for its type, and asks nothing of
`null`. -/
def typeTest (test : TypeTest) (p : Piece) (ty : Ty) : Writing Tree := do
  let t ← match test with
    | .is => do
      let t ← p.operand (.shape .typeIs)
      put " is "
      putType ty
      pure t
    | .equal => do
      let t ← p.operand (.shape .memberAccess)
      put (if p.tree.ty.excludesNull then ".GetType() == typeof(" else "?.GetType() == typeof(")
      putType ty
      put ")"
      pure t
  return .mk (.typeTest test t ty)

end Scribe.Writing
