/-!
# Types

The static types that occur in a tree: primitive types, arrays, nullable and by-reference types, and
named types with generic arguments and an enclosing type.

## Equality

Types compare structurally, over every attribute of a named type. The nested lists keep the equality
from being derived; `Ty.same` decides it by recursion on the first type, and `Ty.same_iff` says that
it is right.
-/

namespace Scribe

/-- The types that the language spells with a keyword. -/
inductive Primitive where
  | void | bool | byte | sbyte | char | short | ushort | int | uint | long | ulong
  | float | double | decimal | object | string
deriving DecidableEq, Repr

/-- What sort of declaration a named type is. -/
inductive Category where
  | reference | struct | interface | enum | delegate
deriving DecidableEq, Repr

/-- The attributes of a named type that hold no other type. -/
structure TypeHead where
  /-- The namespace; an empty one counts as none wherever a name is spelled. -/
  ns : Option String := none
  /-- The name at run time, with the arity after a backtick where there is one. -/
  name : String
  /-- Whether this is an open generic definition, such as `Dictionary<,>`. -/
  isDefinition : Bool := false
  category : Category := .reference
  isPublic : Bool := true
  /-- Whether members of an instance are resolved at run time. -/
  isDynamic : Bool := false
  /-- The name of the member behind the indexer brackets. -/
  defaultMember : Option String := none
  assembly : Option String := none
deriving DecidableEq, Repr

/-- A static type. -/
inductive Ty where
  | prim (p : Primitive)
  | array (element : Ty) (rank : Nat)
  | nullable (inner : Ty)
  | byRef (inner : Ty)
  | named (head : TypeHead) (args : List Ty) (declaring : Option Ty)

namespace Ty

@[match_pattern] abbrev void : Ty := .prim .void
@[match_pattern] abbrev bool : Ty := .prim .bool
@[match_pattern] abbrev int : Ty := .prim .int
@[match_pattern] abbrev object : Ty := .prim .object

/-! ## Equality -/

mutual

/-- Whether two types agree in every attribute. -/
def same : Ty → Ty → Bool
  | .prim p, .prim q => p == q
  | .array a m, .array b n => same a b && m == n
  | .nullable a, .nullable b => same a b
  | .byRef a, .byRef b => same a b
  | .named h as d, .named k bs e => h == k && sameAll as bs && sameOptional d e
  | _, _ => false

/-- Whether two lists of types agree, place by place. -/
def sameAll : List Ty → List Ty → Bool
  | [], [] => true
  | a :: as, b :: bs => same a b && sameAll as bs
  | _, _ => false

/-- Whether two optional types agree. -/
def sameOptional : Option Ty → Option Ty → Bool
  | none, none => true
  | some a, some b => same a b
  | _, _ => false

end

mutual

/-- `same` decides equality. -/
theorem same_iff : ∀ a b : Ty, same a b = true ↔ a = b
  | .prim _, b => by cases b <;> simp [same]
  | .array a _, b => by cases b <;> simp [same, same_iff a]
  | .nullable a, b => by cases b <;> simp [same, same_iff a]
  | .byRef a, b => by cases b <;> simp [same, same_iff a]
  | .named _ as d, b => by cases b <;> simp [same, sameAll_iff as, sameOptional_iff d, and_assoc]

theorem sameAll_iff : ∀ as bs : List Ty, sameAll as bs = true ↔ as = bs
  | [], bs => by cases bs <;> simp [sameAll]
  | a :: as, bs => by cases bs <;> simp [sameAll, same_iff a, sameAll_iff as]

theorem sameOptional_iff : ∀ a b : Option Ty, sameOptional a b = true ↔ a = b
  | none, b => by cases b <;> simp [sameOptional]
  | some a, b => by cases b <;> simp [sameOptional, same_iff a]

end

instance : DecidableEq Ty := fun a b => decidable_of_iff _ (same_iff a b)

/-! ## Questions about a type -/

/-- Whether the type is `void`. -/
def isVoid : Ty → Bool
  | .void => true
  | _ => false

/-- Whether the type is a reference to a variable of another type. -/
def isByRef : Ty → Bool
  | .byRef _ => true
  | _ => false

/-- Whether the type is an interface. -/
def isInterface : Ty → Bool
  | .named head _ _ => head.category == .interface
  | _ => false

/-- Whether values are whole numbers: the integer types, `char`, enumerations, and their nullable
forms. -/
def isIntegral : Ty → Bool
  | .prim p => p ∈ [.byte, .sbyte, .short, .ushort, .int, .uint, .long, .ulong, .char]
  | .nullable inner => inner.isIntegral
  | .named head _ _ => head.category == .enum
  | _ => false

/-- Whether the type holds values and never `null`. -/
def excludesNull : Ty → Bool
  | .prim p => p ∉ [.object, .string, .void]
  | .byRef inner => inner.excludesNull
  | .named head _ _ => head.category == .struct || head.category == .enum
  | _ => false

/-- The element type of an array, or the type behind a reference. -/
def element? : Ty → Option Ty
  | .array element _ => some element
  | .byRef inner => some inner
  | _ => none

/-- The type without an outermost reference. -/
def deref : Ty → Ty
  | .byRef inner => inner
  | ty => ty

/-- The name of the member behind the indexer brackets. -/
def defaultMember? : Ty → Option String
  | .named head _ _ => head.defaultMember
  | _ => none

/-- The assembly of the primitive types. -/
def coreLibrary : String := "System.Private.CoreLib"

/-- The namespace; that of the element for arrays, nullable and by-reference types. -/
def ns? : Ty → Option String
  | .prim _ => some "System"
  | .array element _ => element.ns?
  | .nullable inner => inner.ns?
  | .byRef inner => inner.ns?
  | .named head _ _ => head.ns

/-- The assembly; that of the element for arrays, nullable and by-reference types. -/
def assembly? : Ty → Option String
  | .prim _ => some coreLibrary
  | .array element _ => element.assembly?
  | .nullable inner => inner.assembly?
  | .byRef inner => inner.assembly?
  | .named head _ _ => head.assembly

end Ty

end Scribe
