import Scribe.Operator.Kind
import Scribe.Ty.Spelling

/-!
# Late-bound operations

What a late-bound node does with its arguments; the first argument is the receiver.
-/

namespace Scribe

/-- A late-bound operation. -/
inductive LateBound where
  | convert (ty : Ty)
  | getMember (name : String)
  | setMember (name : String)
  | deleteMember (name : String)
  | getIndex
  | setIndex
  | deleteIndex
  | invokeMember (name : String)
  | invoke
  | createInstance
  | unaryOperation (kind : Kind)
  | binaryOperation (kind : Kind)
  /-- An operation of another language, of which only the name is known. -/
  | custom (name : String)
deriving DecidableEq

namespace LateBound

/-- How many arguments the operation reads at least. -/
def minArguments : LateBound → Nat
  | .setMember _ | .binaryOperation _ | .getIndex | .deleteIndex => 2
  | .setIndex => 3
  | _ => 1

/-- How a message refers to the operation; a conversion to a type without a full name has no text. -/
def text? : LateBound → Option String
  | .convert ty => do
    let name ← ty.fullName?
    return "Convert(" ++ name ++ ")"
  | .getMember name => some ("GetMember(" ++ name ++ ")")
  | .setMember name => some ("SetMember(" ++ name ++ ")")
  | .deleteMember name => some ("DeleteMember(" ++ name ++ ")")
  | .getIndex => some "GetIndex"
  | .setIndex => some "SetIndex"
  | .deleteIndex => some "DeleteIndex"
  | .invokeMember name => some ("InvokeMember(" ++ name ++ ")")
  | .invoke => some "Invoke"
  | .createInstance => some "CreateInstance"
  | .unaryOperation kind => some ("UnaryOperation(" ++ kind.name ++ ")")
  | .binaryOperation kind => some ("BinaryOperation(" ++ kind.name ++ ")")
  | .custom name => some name

end LateBound

end Scribe
