import Scribe.Ident
import Scribe.Ty.WellKnown
import Scribe.Value.Float

/-!
# Values

The values of constant nodes. A host object has no literal form: it is known by its identity and its
type, and reaches a script through a field.
-/

namespace Scribe

/-- An object of the running program, known by its identity. -/
structure HostObject where
  id : Ident
  ty : Ty
deriving DecidableEq

/-- The value of a constant. -/
inductive Value where
  | null
  | bool (b : Bool)
  | char (c : Char)
  | string (s : String)
  | sbyte (n : Int8)
  | byte (n : UInt8)
  | short (n : Int16)
  | ushort (n : UInt16)
  | int (n : Int32)
  | uint (n : UInt32)
  | long (n : Int64)
  | ulong (n : UInt64)
  | float (x : Single)
  | double (x : Double)
  /-- The digits of a decimal number, as they are written. -/
  | decimal (digits : String)
  /-- A value of an enumeration; not every number has a member. -/
  | enum (ty : Ty) (member : Option String) (raw : Int64)
  /-- A type as a value. -/
  | type (ty : Ty)
  | object (o : HostObject)
deriving DecidableEq

namespace Value

/-- The type of a value; `null` is an `object`. -/
def ty : Value → Ty
  | .null => .object
  | .bool _ => .bool
  | .char _ => .prim .char
  | .string _ => .prim .string
  | .sbyte _ => .prim .sbyte
  | .byte _ => .prim .byte
  | .short _ => .prim .short
  | .ushort _ => .prim .ushort
  | .int _ => .int
  | .uint _ => .prim .uint
  | .long _ => .prim .long
  | .ulong _ => .prim .ulong
  | .float _ => .prim .float
  | .double _ => .prim .double
  | .decimal _ => .prim .decimal
  | .enum ty _ _ => ty
  | .type _ => Ty.system "Type"
  | .object o => o.ty

/-- Whether the value is a number that is written with a leading minus sign. -/
def isNegative : Value → Bool
  | .sbyte n => n < 0
  | .short n => n < 0
  | .int n => n < 0
  | .long n => n < 0
  | .float x => x.decoded.isNegative
  | .double x => x.decoded.isNegative
  | .decimal digits => digits.toList.head? == some '-'
  | _ => false

end Value

end Scribe
