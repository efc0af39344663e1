import Scribe.Draft
import Scribe.Text.Sorted

/-!
# Assembling a script

Puts the parts of a script together: imports and aliases, the class with its fields, the entry method
and the methods that lambdas were moved to. A script without a type name is just the body and the
methods. Along the way it is noted where each part begins, which only now is known.
-/

namespace Scribe

open Text (Page Position)

namespace Script

/-- Writes lines and, if there are any, a blank line behind them. -/
def paragraph (page : Page) (lines : List String) : Page :=
  let page := lines.foldl Page.writeLine page
  if lines.isEmpty then page else page.newline

/-- Adds the texts of methods one after the other, and notes where each begins. -/
def appendMethods (page : Page) : List String → Page × List Position
  | [] => (page, [])
  | text :: texts =>
    let (last, positions) := appendMethods (page.append text) texts
    (last, page.position :: positions)

/-- Adds the body and the methods. -/
def appendParts (page : Page) (body : String) (methods : List String) : Page × Layout :=
  let (last, positions) := appendMethods (page.append body) methods
  (last, { main := page.position, methods := positions })

/-- Opens the namespace, if there is one. -/
def openNamespace (w : Wrapper) (page : Page) : Page :=
  match w.space? with
  | some space => (page.writeLine ("namespace " ++ space)).openBrace false
  | none => page

/-- Opens the class. -/
def openClass (w : Wrapper) (typeName : String) (bases : List String) (page : Page) : Page :=
  let access := if w.isInternal then "internal " else "public "
  let keyword := if w.isStatic then "static class " else "class "
  let page := page.writeLine (access ++ keyword ++ typeName)
  let page := if bases.isEmpty then page else page.write (" : " ++ ", ".intercalate bases)
  page.openBrace false

/-- Writes the declarations of fields, given as names and types, and a blank line behind them. -/
def writeFields (w : Wrapper) (fields : List (String × String)) (page : Page) : Page :=
  let access := if w.isStatic then "public static " else "public "
  let page := fields.foldl (fun page (name, ty) => page.writeLine (access ++ ty ++ " " ++ name ++ ";"))
    page
  if fields.isEmpty then page else page.append "\n"

/-- Closes the class, and the namespace if there is one. -/
def closeClass (w : Wrapper) (page : Page) : Page :=
  match w.space? with
  | some _ => page.closeBrace.closeBrace
  | none => page.closeBrace

/-- The text of a script with a class around it, and where its parts begin. -/
def inClass (w : Wrapper) (typeName : String) (namespaces : List String)
    (aliases : List (String × String)) (bases : List String) (fields : List (String × String))
    (body : String) (methods : List String) : String × Layout :=
  let page := paragraph (Page.document 0) (namespaces.map fun ns => "using " ++ ns ++ ";")
  let page := paragraph page (aliases.map fun (name, full) => "using " ++ name ++ " = " ++ full ++ ";")
  let page := writeFields w fields (openClass w typeName bases (openNamespace w page))
  let (page, layout) := appendParts page body methods
  ((closeClass w page).text, layout)

/-- The text of a script without a class, and where its parts begin. -/
def bare (body : String) (methods : List String) : String × Layout :=
  let (page, layout) := appendParts (Page.document 0) body methods
  (page.text, { layout with main := {} })

end Script

/-- A finished script. -/
structure Script where
  text : String
  /-- The tree that was written, as it stands after the writing. -/
  tree : Tree
  /-- The fields that have to be filled in before the script runs, in order of creation. -/
  fields : List Field
  namespaces : List String
  assemblies : List String
  usesDynamic : Bool
  /-- The markers of statements and tests; there are none without a document. -/
  markers : List Marker

/-- The value that a field of a given name is filled with. -/
def Script.hoisted? (s : Script) (name : String) : Option Hoisted :=
  (s.fields.find? (·.name == name)).map (·.value)

/-- The base class first, and then the interfaces. -/
def Wrapper.orderedBases (w : Wrapper) : List Ty :=
  w.bases.filter (!·.isInterface) ++ w.bases.filter (·.isInterface)

/-- Puts a script together, and tells where its parts begin. All types are spelled before the imports
are written. -/
def Draft.assemble (d : Draft) (w : Wrapper) (tree : Tree) :
    Except ScriptError (Script × Layout) := do
  let (bases, lexicon) := (w.orderedBases.mapM Lexicon.spell).run d.lexicon
  let (types, lexicon) := (d.fields.mapM fun f => Lexicon.spell f.ty).run lexicon
  let fields := Text.stableSort Text.pairBefore ((d.fields.map (·.name)).zip types)
  let (text, layout) ← match w.typeName with
    | some typeName =>
      match lexicon.aliases? with
      | some aliases =>
        pure (Script.inClass w typeName lexicon.namespaces aliases bases fields d.page.text d.methods)
      | none => throw .noFullName
    | none => pure (Script.bare d.page.text d.methods)
  let script : Script :=
    { text, tree, fields := d.fields, namespaces := lexicon.namespaces,
      assemblies := lexicon.assemblies, usesDynamic := lexicon.usesDynamic,
      markers := d.passages.map Passage.marker }
  return (script, layout)

end Scribe
