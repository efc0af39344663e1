import Scribe.Ident
import Scribe.Ty.WellKnown

/-!
# What trees refer to

Variables, labels, sets of variables and methods are known by their identities; fields and
properties by their content.
-/

namespace Scribe

/-- A parameter of a lambda, a variable of a block or the variable of a handler. -/
structure Variable where
  id : Ident
  name : Option String := none
  ty : Ty
deriving DecidableEq

/-- A variable; an empty name counts as none. -/
def Variable.make (id : Ident) (ty : Ty) (name : Option String) : Variable :=
  { id, ty, name := name.filter (· != "") }

/-- What a jump goes to. A value that the jump carries has the type of the label. -/
structure Label where
  id : Ident
  name : Option String := none
  ty : Ty := .void
deriving DecidableEq

/-- A label; an empty name counts as none. -/
def Label.make (id : Ident) (ty : Ty) (name : Option String) : Label :=
  { id, ty, name := name.filter (· != "") }

/-- Variables that are handed over together as one value. -/
structure VariableSet where
  id : Ident
  members : List Variable
deriving DecidableEq

/-- What a lambda shows without its body. Here an empty name is a name. -/
structure Signature where
  id : Ident
  name : Option String := none
  params : List Variable
  result : Ty
deriving DecidableEq

/-- The delegate type of a lambda. -/
def Signature.delegate (sig : Signature) : Ty :=
  Ty.delegate (sig.params.map (·.ty)) sig.result

/-! ## Members -/

/-- What kind of member of a type it is. -/
inductive MemberKind where
  | field | property
deriving DecidableEq, Repr

/-- A field or a property. -/
structure Member where
  name : String
  owner : Ty
  ty : Ty
  kind : MemberKind := .field
  isStatic : Bool := false
deriving DecidableEq

/-- Whether the member stands behind the indexer brackets of its type. -/
def Member.isDefault (m : Member) : Bool :=
  m.owner.defaultMember? == some m.name

/-- A parameter of a method. -/
structure MethodParam where
  name : String
  ty : Ty
  isOut : Bool := false
deriving DecidableEq

/-- A parameter; the type of an `out` parameter is a reference. -/
def MethodParam.make (name : String) (ty : Ty) (isOut : Bool) : MethodParam :=
  { name, isOut, ty := if isOut then .byRef ty else ty }

/-- What is written in front of an argument. -/
def MethodParam.modifier (p : MethodParam) : String :=
  if p.isOut then "out " else if p.ty.isByRef then "ref " else ""

/-- A method of a type. -/
structure Method where
  id : Ident
  owner : Ty
  name : String
  result : Ty
  params : List MethodParam := []
  generics : List Ty := []
  isPublic : Bool := true
  isStatic : Bool := true
  /-- Whether the name was made by a compiler, as that of an accessor is. -/
  isSpecialName : Bool := false
  isExtension : Bool := false
deriving DecidableEq

namespace Method

/-- Whether the method reads through the indexer brackets of its type. -/
def isDefaultGetter (m : Method) : Bool :=
  m.isSpecialName &&
    match m.owner.defaultMember? with
    | some member => m.name == "get_" ++ member
    | none => false

/-- Whether a script can name the method: both it and its type are public. -/
def isNameable (m : Method) : Bool :=
  m.isPublic &&
    match m.owner with
    | .named head _ _ => head.isPublic
    | _ => true

/-- The delegate type that fits the method. -/
def delegate (m : Method) : Ty :=
  Ty.delegate (m.params.map (·.ty)) m.result

end Method

end Scribe
