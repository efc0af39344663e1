import Scribe.Ty.Basic
import Scribe.Text.Decimal

/-!
# Spelling types

Three spellings that depend on the type alone: its keyword, its name at run time, and its full name,
which is valid wherever the language takes a type, whatever has been imported. The short spelling,
which depends on the imports, is in `Scribe.Lexicon`.
-/

namespace Scribe

/-- The keyword of a primitive type. -/
def Primitive.keyword : Primitive → String
  | .void => "void"
  | .bool => "bool"
  | .byte => "byte"
  | .sbyte => "sbyte"
  | .char => "char"
  | .short => "short"
  | .ushort => "ushort"
  | .int => "int"
  | .uint => "uint"
  | .long => "long"
  | .ulong => "ulong"
  | .float => "float"
  | .double => "double"
  | .decimal => "decimal"
  | .object => "object"
  | .string => "string"

/-- The name of a primitive type at run time. -/
def Primitive.runtimeName : Primitive → String
  | .void => "Void"
  | .bool => "Boolean"
  | .byte => "Byte"
  | .sbyte => "SByte"
  | .char => "Char"
  | .short => "Int16"
  | .ushort => "UInt16"
  | .int => "Int32"
  | .uint => "UInt32"
  | .long => "Int64"
  | .ulong => "UInt64"
  | .float => "Single"
  | .double => "Double"
  | .decimal => "Decimal"
  | .object => "Object"
  | .string => "String"

namespace TypeHead

/-- The mark between a name and its arity. -/
def arityMark : Char := '\x60'

/-- The name without its arity. -/
def simpleName (head : TypeHead) : String :=
  String.ofList (head.name.toList.takeWhile (· != arityMark))

/-- The arity that stands behind the last mark, and zero where none can be read. -/
def writtenArity (head : TypeHead) : Nat :=
  if arityMark ∈ head.name.toList then
    (Text.count? (head.name.toList.reverse.takeWhile (· != arityMark)).reverse).getD 0
  else 0

/-- The number of generic parameters, given the generic arguments. -/
def arity (head : TypeHead) (args : List Ty) : Nat :=
  if args.isEmpty then head.writtenArity else args.length

end TypeHead

/-- A row of commas. -/
def commas (n : Nat) : String := String.ofList (List.replicate n ',')

namespace Ty

/-- The keyword of a primitive type. -/
def keyword? : Ty → Option String
  | .prim p => some p.keyword
  | _ => none

/-- The name at run time, without namespace and arity. -/
def runtimeName : Ty → String
  | .prim p => p.runtimeName
  | .array element _ => element.runtimeName ++ "Array"
  | .nullable _ => "Nullable"
  | .byRef inner => inner.runtimeName
  | .named head _ _ => head.simpleName

/-- What follows the name of an open generic definition. -/
def openBrackets (head : TypeHead) (args : List Ty) : String :=
  "<" ++ commas (head.arity args - 1) ++ ">"

mutual

/-- The full name. An array of rank zero has none, and neither has a type built from one. -/
def fullName? : Ty → Option String
  | .prim p => some p.keyword
  | .array _ 0 => none
  | .array element (commaCount + 1) => do
    let name ← fullName? element
    return name ++ "[" ++ commas commaCount ++ "]"
  | .nullable inner => do
    let name ← fullName? inner
    return name ++ "?"
  | .byRef inner => fullName? inner
  | .named head args declaring => do
    let outer ← fullPath? head.ns declaring
    let name := outer ++ head.simpleName
    if head.isDefinition then
      return name ++ openBrackets head args
    else if args.isEmpty then
      return name
    else
      let names ← fullNames? args
      return name ++ "<" ++ ", ".intercalate names ++ ">"

/-- The full names of a list of types. -/
def fullNames? : List Ty → Option (List String)
  | [] => some []
  | ty :: tys => do
    let name ← fullName? ty
    let names ← fullNames? tys
    return name :: names

/-- What stands in front of a name: the enclosing type, or else the namespace, and a dot. -/
def fullPath? (ns : Option String) : Option Ty → Option String
  | some outer => do
    let name ← fullName? outer
    return name ++ "."
  | none =>
    match ns with
    | some space => some (if space.isEmpty then "" else space ++ ".")
    | none => some ""

end

end Ty

end Scribe
