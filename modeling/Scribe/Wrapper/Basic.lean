import Scribe.Ty.Basic

/-!
# Wrappers

What is written around a script: a class in a namespace, the name of the entry method, and the document
that sequence points refer to. Without a type name nothing is written around it, and the script is a
bare piece of code.
-/

namespace Scribe

/-- What surrounds a script. -/
structure Wrapper where
  ns : Option String := none
  typeName : Option String := none
  isStatic : Bool := false
  isInternal : Bool := false
  methodName : Option String := none
  /-- The base class and the interfaces of the class. -/
  bases : List Ty := []
  /-- The document of the sequence points; without one there are none. -/
  document : Option String := none
deriving DecidableEq

namespace Wrapper

/-- The namespace, if it is not empty. -/
def space? (w : Wrapper) : Option String := w.ns.filter (· != "")

/-- The name of the entry method. -/
def entryName (w : Wrapper) : String := w.methodName.getD "Main"

/-- The type name behind the namespace. -/
def qualifiedName? (w : Wrapper) : Option String :=
  w.typeName.map fun name =>
    match w.space? with
    | some space => space ++ "." ++ name
    | none => name

/-- The level of indentation of the members of the class. -/
def memberLevel (w : Wrapper) : Nat :=
  match w.typeName, w.space? with
  | none, _ => 0
  | some _, some _ => 2
  | some _, none => 1

end Wrapper

end Scribe
