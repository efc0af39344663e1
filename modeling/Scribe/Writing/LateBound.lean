import Scribe.Writing.Operation

/-!
# Late-bound operations

A late-bound operation is written like the ordinary one, on a receiver that is resolved at run time.
Arguments that an operation does not read stay in the tree as they are.
-/

namespace Scribe.Writing

/-- The error that an operation has too few arguments. -/
def tooFewArguments (op : LateBound) (found : Nat) : ScriptError :=
  match op.text? with
  | some text => .malformed (.tooFewArguments text op.minArguments found)
  | none => .noFullName

/-- Writes a late-bound operation on a receiver and its other arguments, and gives the arguments as
they stand in the tree. -/
def dynamicArguments (op : LateBound) (receiver : Piece) (rest : List Piece) :
    Writing (List Tree) := do
  let asIs := fun ps : List Piece => ps.map (·.tree)
  match op with
  | .convert ty =>
    put "("
    putType ty
    put ")"
    let t ← receiver.operand (.unary .convert)
    return t :: asIs rest
  | .getMember name =>
    let t ← receiver.operand (.shape .memberAccess)
    put ("." ++ name)
    return t :: asIs rest
  | .setMember name =>
    let t ← receiver.operand (.shape .memberAccess)
    put ("." ++ name ++ " = ")
    match rest with
    | value :: unread =>
      let v ← value.operand (.binary .assign) true
      return t :: v :: asIs unread
    | [] => throw (tooFewArguments op 1)
  | .deleteMember name =>
    let t ← receiver.operand (.shape .memberAccess)
    put ("." ++ name ++ " = null")
    return t :: asIs rest
  | .getIndex =>
    let t ← receiver.operand (.shape .index)
    let ts ← arguments "[" "]" rest
    return t :: ts
  | .setIndex =>
    let t ← receiver.operand (.shape .index)
    match rest.getLast? with
    | some value =>
      let ts ← arguments "[" "]" rest.dropLast
      put " = "
      let v ← value.operand (.binary .assign) true
      return t :: (ts ++ [v])
    | none => throw (tooFewArguments op 1)
  | .deleteIndex =>
    let t ← receiver.operand (.shape .index)
    let ts ← arguments "[" "]" rest
    put " = null"
    return t :: ts
  | .invokeMember name =>
    let t ← receiver.operand (.shape .memberAccess)
    put ("." ++ name)
    let ts ← arguments "(" ")" rest
    return t :: ts
  | .invoke =>
    let t ← receiver.operand (.shape .invoke)
    let ts ← arguments "(" ")" rest
    return t :: ts
  | .createInstance =>
    put "new "
    let t ← receiver.operand (.shape .invoke)
    let ts ← arguments "(" ")" rest
    return t :: ts
  | .unaryOperation kind =>
    let t ← affixed kind receiver
    return t :: asIs rest
  | .binaryOperation kind =>
    match rest with
    | right :: unread =>
      let (l, r) ← infixed kind receiver right
      return l :: r :: asIs unread
    | [] => throw (tooFewArguments op 1)
  | .custom name => throw (.foreignOperation name)

/-- Writes a late-bound operation. -/
def dynamic (op : LateBound) (args : List Piece) (ty : Ty) : Writing Tree := do
  match args with
  | receiver :: rest =>
    if args.length < op.minArguments then throw (tooFewArguments op args.length)
    markDynamic
    let ts ← dynamicArguments op receiver rest
    return .mk (.dynamic op ts ty)
  | [] => throw (tooFewArguments op 0)

end Scribe.Writing
