import Scribe.Draft
import Scribe.Text.Literal

/-!
# Constants

How the values of constants are written. The small integer types have no suffix of their own and are
written with a cast; a host object is taken from a field.
-/

namespace Scribe

open Writing Text

/-- The literal of a floating-point number: positional digits and a suffix, or a named constant of the
type. -/
def FloatValue.literal (x : FloatValue) (keyword suffix : String) : String :=
  match x with
  | .nan => keyword ++ ".NaN"
  | .infinite false => keyword ++ ".PositiveInfinity"
  | .infinite true => keyword ++ ".NegativeInfinity"
  | .finite negative magnitude =>
    (if negative then "-" else "") ++ magnitude.shortest.positional ++ suffix

/-- The literal of a value of an enumeration whose type is spelled `name`. A negative number would read
as a subtraction behind the cast, and goes into parentheses. -/
def enumLiteral (name : String) (member : Option String) (raw : Int) : String :=
  match member with
  | some member => name ++ "." ++ member
  | none =>
    if raw < 0 then "(" ++ name ++ ")(" ++ toString raw ++ ")" else "(" ++ name ++ ")" ++ toString raw

/-- The text of a value. -/
def Value.text : Value → Writing String
  | .null => return "null"
  | .bool b => return if b then "true" else "false"
  | .char c => return charLiteral c
  | .string s => return stringLiteral s
  | .int n => return toString n.toInt
  | .uint n => return toString n.toNat ++ "u"
  | .long n => return toString n.toInt ++ "L"
  | .ulong n => return toString n.toNat ++ "UL"
  | .sbyte n => return "(sbyte)" ++ toString n.toInt
  | .byte n => return "(byte)" ++ toString n.toNat
  | .short n => return "(short)" ++ toString n.toInt
  | .ushort n => return "(ushort)" ++ toString n.toNat
  | .float x => return x.decoded.literal "float" "f"
  | .double x => return x.decoded.literal "double" "d"
  | .decimal digits => return digits ++ "m"
  | .enum ty member raw => return enumLiteral (← spell ty) member raw.toInt
  | .type ty => return "typeof(" ++ (← spell ty) ++ ")"
  | .object o => field (.object o) o.ty o.ty.runtimeName

/-- Writes a value. -/
def Writing.putValue (v : Value) : Writing Unit := do put (← v.text)

end Scribe
