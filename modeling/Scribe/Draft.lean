import Scribe.Script.Error
import Scribe.Field
import Scribe.Flow
import Scribe.Lexicon
import Scribe.Marker
import Scribe.Text.Page
import Scribe.Wrapper.Basic

/-!
# Drafts

A draft is the state of a script that is being written: the page, the texts of the methods that lambdas
were moved to, the names, types and fields in use, and the flow of control around the current place.

`Writing` is the monad of everything that writes: it reads the desk, which stays the same, changes the
draft, and may stop with an error. The rest of this module are its elementary steps.
-/

namespace Scribe

open Text (Page Position)

/-- Where the parts of a script that are written on pages of their own begin in the whole. -/
structure Layout where
  main : Position := {}
  methods : List Position := []
deriving DecidableEq, Repr

/-- What stays the same while a script is written. -/
structure Desk where
  wrapper : Wrapper
  layout : Layout

/-- The state of a script that is being written. -/
structure Draft where
  /-- The page that is being written. -/
  page : Page
  /-- The texts of the methods that lambdas were moved to, in the order in which they were begun. -/
  methods : List String := []
  /-- What stands in the tree for each lambda that was moved. -/
  promoted : List (Ident × Tree) := []
  naming : Naming := {}
  fields : List Field := []
  lexicon : Lexicon := {}
  /-- The variables that are declared by their first assignment, which is still to come. -/
  undeclared : List Ident := []
  flow : Flow := {}
  /-- What is marked, in the order in which it was finished. -/
  passages : List Passage := []
  /-- How many lambdas have been written in place. -/
  turns : Nat := 0

/-- What stands in the tree for a variable that is written as `name`. -/
def Variable.written (v : Variable) (name : String) : Variable :=
  match v.name with
  | some _ => v
  | none => { id := .renamed v.id, name := some name, ty := v.ty }

/-- A step of writing. -/
abbrev Writing := ReaderT Desk (StateT Draft (Except ScriptError))

namespace Writing

variable {α : Type}

/-! ## The page -/

/-- Changes the page. -/
def onPage (f : Page → Page) : Writing Unit :=
  modify fun d => { d with page := f d.page }

/-- Writes text on the current line. -/
def put (s : String) : Writing Unit := onPage (·.write s)

/-- Writes text on a new line. -/
def putLine (s : String) : Writing Unit := onPage (·.writeLine s)

/-- Starts a new line. -/
def newline : Writing Unit := onPage Page.newline

/-- Goes a level deeper. -/
def indent : Writing Unit := onPage Page.indent

/-- Goes a level back. -/
def dedent : Writing Unit := onPage Page.dedent

/-- Opens a brace on a new line. -/
def openBrace : Writing Unit := onPage (·.openBrace false)

/-- Opens a brace on the current line. -/
def openBraceHere : Writing Unit := onPage (·.openBrace true)

/-- Goes a level back and closes a brace on a new line. -/
def closeBrace : Writing Unit := onPage Page.closeBrace

/-- The page as it is now. -/
def page : Writing Page := return (← get).page

/-! ## Types, names and fields -/

/-- Spells a type. -/
def spell (ty : Ty) : Writing String :=
  modifyGet fun d =>
    let (name, lexicon) := (Lexicon.spell ty).run d.lexicon
    (name, { d with lexicon })

/-- Writes a type. -/
def putType (ty : Ty) : Writing Unit := do put (← spell ty)

/-- Writes the default value of a type. -/
def putDefault (ty : Ty) : Writing Unit := do
  let name ← spell ty
  put ("default(" ++ name ++ ")")

/-- Takes note that something is bound at run time. -/
def markDynamic : Writing Unit :=
  modify fun d => { d with lexicon := d.lexicon.markDynamic }

/-- Asks for a name. -/
def naming (f : Naming → String × Naming) : Writing String :=
  modifyGet fun d =>
    let (name, naming) := f d.naming
    (name, { d with naming })

/-- The field for a value without a literal. -/
def field (value : Hoisted) (ty : Ty) (hint : String) : Writing String :=
  modifyGet fun d =>
    let (name, fields, naming) := Field.request d.fields d.naming value ty hint
    (name, { d with fields, naming })

/-! ## Variables -/

/-- Writes a variable; the first writing of one that is still to be declared declares it. -/
def putVariable (v : Variable) : Writing Variable := do
  let name ← naming (·.nameVariable v)
  if (← get).undeclared.contains v.id then
    modify fun d => { d with undeclared := d.undeclared.filter (· != v.id) }
    putType v.ty
    put " "
  put name
  return v.written name

/-- Leaves the declaration of a variable to its first assignment. -/
def postpone (v : Variable) : Writing Variable := do
  let name ← naming (·.nameVariable v)
  modify fun d => { d with undeclared := v.id :: d.undeclared.filter (· != v.id) }
  return v.written name

/-! ## Lists -/

/-- Writes items with commas between them, each on a line of its own when `wrap` is set. -/
def separated (wrap : Bool) : List (Writing α) → Writing (List α)
  | [] => return []
  | item :: rest => do
    if wrap then newline
    let a ← item
    unless rest.isEmpty do put (if wrap then "," else ", ")
    let as ← separated wrap rest
    return a :: as

/-- Writes a list on one line, between two brackets. -/
def bracketed (left right : String) (items : List (Writing α)) : Writing (List α) := do
  put left
  let as ← separated false items
  put right
  return as

/-- Writes the braces of an initializer. More than `limit` items go on lines of their own. -/
def braced (limit : Nat) (items : List (Writing α)) : Writing (List α) := do
  if items.length ≤ limit then
    put " "
    bracketed "\x7b" "\x7d" items
  else
    newline
    put "\x7b"
    indent
    let as ← separated true items
    dedent
    newline
    put "\x7d"
    return as

/-! ## Flow and markers -/

/-- Changes what is known of the jumps around the current place. -/
def onFlow (f : Flow → Flow) : Writing Unit :=
  modify fun d => { d with flow := f d.flow }

/-- Writes the body of another function, in which nothing of the flow around it counts. -/
def inFunction (body : Writing α) : Writing α := do
  let flow := (← get).flow
  onFlow fun _ => {}
  let a ← body
  onFlow fun _ => flow
  return a

/-- Marks what has been written since the page was `start`; without a document nothing is marked. -/
def mark (form : Passage.Form) (start : Page) : Writing (Option Tree) := do
  match (← read).wrapper.document with
  | none => return none
  | some document =>
    let passage : Passage := ⟨form, start, ← page⟩
    modify fun d => { d with passages := d.passages ++ [passage] }
    return some (.mk (.sequencePoint document passage.marker.span))

end Writing

end Scribe
