import Scribe.Text.Sorted
import Scribe.Ty.Spelling

/-!
# The lexicon of a script

How a script spells the named types that it uses, and what it has to import for that. The first type
that claims a spelling gets it, and its namespace is imported. A later type with the same spelling gets
a numbered name, which an alias stands for. A type keeps the name that it got first.

A type that a script cannot name, because it is not public or because its members are resolved at run
time, is spelled `dynamic`.
-/

namespace Scribe

namespace Lexicon

/-- A named type that the script uses. -/
structure Entry where
  ty : Ty
  /-- The spelling before collisions are looked at. -/
  base : String
  /-- The spelling that the script uses. -/
  name : String

end Lexicon

/-- The types that a script uses, in order of first use. -/
structure Lexicon where
  entries : List Lexicon.Entry := []
  /-- The imported namespaces, in increasing order. -/
  imports : List String := []
  /-- Whether anything is bound at run time. -/
  usesDynamic : Bool := false

namespace Lexicon

/-- The name that a type has got. -/
def name? (lex : Lexicon) (ty : Ty) : Option String :=
  (lex.entries.find? (·.ty == ty)).map (·.name)

/-- Imports a namespace, if there is one. -/
def importing (lex : Lexicon) : Option String → Lexicon
  | some ns => if ns.isEmpty then lex else { lex with imports := Text.insertSorted ns lex.imports }
  | none => lex

/-- Adds a type with the spelling `base`, and gives its name. -/
def register (lex : Lexicon) (ty : Ty) (head : TypeHead) (base : String) : String × Lexicon :=
  let collisions := (lex.entries.filter (·.base == base)).length
  if collisions = 0 then
    let lex := lex.importing head.ns
    (base, { lex with entries := lex.entries ++ [{ ty, base, name := base }] })
  else
    let name := head.simpleName ++ toString (collisions + 1)
    (name, { lex with entries := lex.entries ++ [{ ty, base, name }] })

/-- Notes that the script needs late binding. -/
def markDynamic (lex : Lexicon) : Lexicon := { lex with usesDynamic := true }

mutual

/-- Spells a type, and adds the named types in it to the lexicon. -/
def spell : Ty → StateM Lexicon String
  | .prim p => pure p.keyword
  | .array element rank => do
    let name ← spell element
    return name ++ "[" ++ commas (rank - 1) ++ "]"
  | .nullable inner => do
    let name ← spell inner
    return name ++ "?"
  | .byRef inner => spell inner
  | .named head args declaring => do
    if !head.isPublic || head.isDynamic then
      modify markDynamic
      return "dynamic"
    match (← get).name? (.named head args declaring) with
    | some name => return name
    | none =>
      let outer ← spellOuter declaring
      let brackets ←
        if head.isDefinition then pure (Ty.openBrackets head args) else spellArguments args
      modifyGet (·.register (.named head args declaring) head (outer ++ head.simpleName ++ brackets))

/-- Spells the enclosing type, and a dot. -/
def spellOuter : Option Ty → StateM Lexicon String
  | none => pure ""
  | some outer => do
    let name ← spell outer
    return name ++ "."

/-- Spells generic arguments in their brackets, and nothing when there are none. -/
def spellArguments : List Ty → StateM Lexicon String
  | [] => pure ""
  | ty :: tys => do
    let name ← spell ty
    let names ← spellAll tys
    return "<" ++ ", ".intercalate (name :: names) ++ ">"

/-- Spells types one after the other. -/
def spellAll : List Ty → StateM Lexicon (List String)
  | [] => pure []
  | ty :: tys => do
    let name ← spell ty
    let names ← spellAll tys
    return name :: names

end

/-! ## What a script has to import -/

/-- Whether a dotted name is `System` or starts with it. -/
def isSystem (name : String) : Bool :=
  name == "System" || "System.".toList.isPrefixOf name.toList

/-- The imported namespaces, those of the system first. -/
def namespaces (lex : Lexicon) : List String :=
  lex.imports.filter isSystem ++ lex.imports.filter (!isSystem ·)

/-- The order of aliases: those of system types first, then by alias. -/
def aliasBefore (a b : String × String) : Bool :=
  if isSystem a.2 == isSystem b.2 then a.1 < b.1 else isSystem a.2

/-- The aliases, each with the full name that it stands for. There are none to be had when a type
without a full name needs one. -/
def aliases? (lex : Lexicon) : Option (List (String × String)) := do
  let aliases ← (lex.entries.filter fun e => e.name != e.base).mapM fun e =>
    e.ty.fullName?.map fun full => (e.name, full)
  return Text.stableSort aliasBefore aliases

mutual

/-- The assemblies of a type, of its generic arguments and of the types around it. -/
def assembliesOf : Ty → List String
  | .named head args declaring =>
    head.assembly.toList ++ assembliesOfAll args ++ assembliesOfOption declaring
  | ty => ty.assembly?.toList

/-- The assemblies of a list of types. -/
def assembliesOfAll : List Ty → List String
  | [] => []
  | ty :: tys => assembliesOf ty ++ assembliesOfAll tys

/-- The assemblies of a type that may be absent. -/
def assembliesOfOption : Option Ty → List String
  | none => []
  | some ty => assembliesOf ty

end

/-- The assemblies of the types in the lexicon, in increasing order. -/
def assemblies (lex : Lexicon) : List String :=
  Text.sortedSet (lex.entries.flatMap (assembliesOf ·.ty))

end Lexicon

end Scribe
