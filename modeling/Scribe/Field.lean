import Scribe.Naming
import Scribe.Value.Basic

/-!
# Fields for values without a literal

Host objects, methods that a script cannot name and sets of variables have no literal form. A script
refers to each through a field, which is filled in before the script runs. One value has one field,
however often the script uses it.
-/

namespace Scribe

/-- A value that a script takes from a field. -/
inductive Hoisted where
  | object (o : HostObject)
  | method (m : Method)
  | varSet (set : VariableSet)
deriving DecidableEq

/-- What tells two such values apart. -/
inductive Hoisted.Key where
  | object (id : Ident)
  | method (id : Ident)
  | varSet (id : Ident)
deriving DecidableEq, Repr

/-- The identity of a value that a field holds. -/
def Hoisted.key : Hoisted → Hoisted.Key
  | .object o => .object o.id
  | .method m => .method m.id
  | .varSet set => .varSet set.id

/-- A field and the value that it is filled with. -/
structure Field where
  name : String
  ty : Ty
  value : Hoisted
deriving DecidableEq

namespace Field

/-- The field for `value` among `fields`, which are in order of creation. A new one is named after
`hint`, and is added behind the others. -/
def request (fields : List Field) (naming : Naming) (value : Hoisted) (ty : Ty) (hint : String) :
    String × List Field × Naming :=
  match fields.find? (·.value.key == value.key) with
  | some field => (field.name, fields, naming)
  | none =>
    let (name, naming) := naming.fresh (Identifier.stem hint)
    (name, fields ++ [{ name, ty, value }], naming)

end Field

end Scribe
