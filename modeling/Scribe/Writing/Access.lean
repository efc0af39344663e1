import Scribe.Tree.Scope
import Scribe.Writing.Piece

/-!
# Members, calls and new objects
-/

namespace Scribe

/-- The type inside nested arrays, and how many arrays are around it. -/
def Ty.unnest : Ty → Ty × Nat
  | .array element _ =>
    let (ty, depth) := element.unnest
    (ty, depth + 1)
  | ty => (ty, 0)

namespace Writing

/-! ## Members and indexers -/

/-- Writes a member behind its receiver, or behind its type when it is static. -/
def memberAccess (receiver : Option Piece) (owner : Ty) (name : String) : Writing (Option Tree) := do
  let r ← match receiver with
    | some p => do
      let t ← p.operand (.shape .memberAccess)
      pure (some t)
    | none => do
      putType owner
      pure none
  put "."
  put name
  return r

/-- Writes an access through brackets. An indexer that is not the default member is named. -/
def indexAccess (receiver : Piece) (indexer : Option Member) (args : List Piece) (ty : Ty) :
    Writing Tree := do
  let r ← match indexer.filter (!·.isDefault) with
    | some m => do
      let t ← receiver.operand (.shape .memberAccess)
      put "."
      put m.name
      pure t
    | none => receiver.operand (.shape .index)
  let as ← arguments "[" "]" args
  return .mk (.index r indexer as ty)

/-! ## Calls -/

/-- Writes the call of a delegate. One that is made on the spot needs parentheses. -/
def invocation (target : Piece) (args : List Piece) (ty : Ty) : Writing Tree := do
  let isMade := match target.tree.node with
    | .lambda sig body => sig.captures body
    | .new _ _ => true
    | _ => false
  let t ← if isMade then target.inParens else target.operand (.shape .invoke)
  let as ← arguments "(" ")" args
  return .mk (.invoke t as ty)

/-- The field for a method that the script cannot name. -/
def methodField (m : Method) : Writing String := do
  if m.params.any fun p => p.isOut || p.ty.isByRef then
    throw (.hiddenMethod m.name .byReference)
  if m.params.length > Ty.maxDelegateParameters then
    throw (.hiddenMethod m.name .tooManyParameters)
  field (.method m) m.delegate m.name

/-- Writes the generic arguments of a method. -/
def putGenerics (tys : List Ty) : Writing Unit := do
  unless tys.isEmpty do
    let names ← tys.mapM spell
    put ("<" ++ ", ".intercalate names ++ ">")

/-- What a call has written so far: the receiver, the argument that it took the place of, and the
arguments that are still to be written, with their parameters. -/
structure CallStart where
  receiver : Option Tree := none
  first : List Tree := []
  args : List Piece
  params : List MethodParam
  /-- Whether the method is still to be named. -/
  unnamed : Bool := true

/-- Writes what stands in front of the name of a method: the receiver, the field of a method that cannot
be named, the first argument of an extension method, or else the type. -/
def callStart (receiver : Option Piece) (m : Method) (args : List Piece) : Writing CallStart := do
  match receiver with
  | some p =>
    let t ← p.operand (.shape .call)
    return { receiver := some t, args, params := m.params }
  | none =>
    if !m.isNameable then
      let name ← methodField m
      put name
      put ".Invoke"
      return { args, params := m.params, unnamed := false }
    match m.isExtension, args with
    | true, first :: rest =>
      -- the type is not written, but its namespace has to be imported
      let _ ← spell m.owner
      let t ← first.operand (.shape .call)
      return { first := [t], args := rest, params := m.params.drop 1 }
    | _, _ =>
      putType m.owner
      return { args, params := m.params }

/-- Writes arguments, each behind the modifier of its parameter. -/
def modifiedArguments : List Piece → List MethodParam → List (Writing Tree)
  | [], _ => []
  | arg :: args, [] => arg.value :: modifiedArguments args []
  | arg :: args, p :: ps =>
    (do put p.modifier; arg.value) :: modifiedArguments args ps

/-- Writes a call. A getter behind the default member is written with brackets. -/
def call (receiver : Option Piece) (m : Method) (args : List Piece) : Writing Tree := do
  let start ← callStart receiver m args
  if m.isDefaultGetter then
    let as ← arguments "[" "]" start.args
    return .mk (.call start.receiver m (start.first ++ as))
  if start.unnamed then
    put "."
    put m.name
    putGenerics m.generics
  let as ← bracketed "(" ")" (modifiedArguments start.args start.params)
  return .mk (.call start.receiver m (start.first ++ as))

/-! ## New objects and arrays -/

/-- Writes the creation of an object, and gives the arguments. -/
def creation (ty : Ty) (args : List Piece) : Writing (List Tree) := do
  put "new "
  putType ty
  arguments "(" ")" args

/-- Writes the creation of an array. Lengths belong to the outermost dimension of an array of arrays. -/
def arrayCreation (form : ArrayForm) (ty : Ty) (items : List Piece) : Writing Tree := do
  put "new "
  let as ← match form with
    | .bounds => do
      let (element, depth) := (ty.element?.getD .object).unnest
      putType element
      let as ← arguments "[" "]" items
      put (String.join (List.replicate depth "[]"))
      pure as
    | .elements => do
      putType ty
      braced 4 (items.map Piece.value)
  return .mk (.newArray form ty as)

/-! ## Initializers -/

/-- Writes the arguments with which an element is added; a single one goes without braces. -/
def element (args : List Piece) : Writing (List Tree) :=
  match args with
  | [arg] => do
    let t ← arg.value
    return [t]
  | _ => arguments "\x7b" "\x7d" args

mutual

/-- Writes the binding of a member. -/
def binding : Binding Piece → Writing (Binding Tree)
  | .assign m p => do
    put m.name
    put " = "
    let t ← p.value
    return .assign m t
  | .elements m inits => do
    put m.name
    put " ="
    let ts ← braced 4 (inits.map element)
    return .elements m ts
  | .nested m bs => do
    put m.name
    put " ="
    let ts ← braced 1 (bindings bs)
    return .nested m ts

/-- The writings of a list of bindings. -/
def bindings : List (Binding Piece) → List (Writing (Binding Tree))
  | [] => []
  | b :: bs => binding b :: bindings bs

end

/-- Writes a new object and the bindings of its members. -/
def memberInit (ty : Ty) (args : List Piece) (bs : List (Binding Piece)) : Writing Tree := do
  let as ← creation ty args
  let ts ← braced 1 (bindings bs)
  return .mk (.memberInit ty as ts)

/-- Writes a new object and its elements. -/
def listInit (ty : Ty) (args : List Piece) (inits : List (List Piece)) : Writing Tree := do
  let as ← creation ty args
  let ts ← braced 4 (inits.map element)
  return .mk (.listInit ty as ts)

end Writing

end Scribe
